import SigmaMethod.CommandLine.Invocation
import SigmaMethod.Text.Digits

/-!
# Reading the arguments

Words are read from left to right. The value of an option is the part of its word after `=`, or the next word if that is
no option; `--` makes plain words of all that follow. A value in its option's own word is judged at once. Any other
value waits until the next option or argument begins or the words end, so that a fault found in between is told first.
-/

namespace SigmaMethod.CommandLine

/-! ## Values -/

def numberOf? (text : String) : Option Nat :=
  let ds := match text.toList with
    | '+' :: ds => ds
    | ds => ds
  if ds ≠ [] ∧ ds.all Char.isDigit then some (Text.ofDigits ds) else none

/-- A level by its number, or by its name in letters of either case. -/
def levelOf? (text : String) : Option Level :=
  match numberOf? text with
  | some k => Level.all.find? fun l => l.number = k
  | none => Level.all.find? fun l => l.name.toList = text.toList.map Char.toUpper

def readLevel (text : String) : Except UsageFault Level :=
  match levelOf? text with
  | some l => .ok l
  | none => .error (.unknownLevel text)

def readFormat (text : String) : Except UsageFault Format :=
  match [Format.table, Format.json].find? fun f => f.name = text with
  | some f => .ok f
  | none => .error (.unknownFormat text)

def readPath (text : String) : Except UsageFault String :=
  if text = "" then .error .missingValue else .ok text

/-! ## Words -/

inductive Shape where
  | terminator
  | long (name : List Char) (value : Option String)
  | letters (first : Char)
  | plain

def Shape.of (word : String) : Shape :=
  match word.toList with
  | ['-', '-'] => .terminator
  | '-' :: '-' :: cs =>
    .long (cs.takeWhile (· ≠ '=')) <|
      match cs.dropWhile (· ≠ '=') with
      | _ :: value => some (String.ofList value)
      | [] => none
  | '-' :: c :: _ => .letters c
  | _ => .plain

abbrev Slot (σ : Type) := String → σ → Except UsageFault σ

def Slot.once {σ α : Type} (get : σ → Option α) (set : α → σ → σ)
    (read : String → Except UsageFault α) : Slot σ := fun text s =>
  match get s with
  | some _ => .error .repeatedOption
  | none => (set · s) <$> read text

/-- An option without a value, by letter and by name. Each ends the reading. -/
structure Flag where
  letter : Char
  name : String
  ending : UsageFault

def helpFlag : Flag := ⟨'h', "help", .help⟩

def versionFlag : Flag := ⟨'V', "version", .version⟩

structure Form (σ : Type) where
  flags : List Flag
  slots : List (String × Slot σ)

/-- What has been read so far, what waits for its value or to be judged, and whether `--` was met. -/
structure Progress (σ : Type) where
  values : σ
  waiting : Option (Slot σ × Option String) := none
  closed : Bool := false

variable {σ : Type}

def Progress.settle (p : Progress σ) : Except UsageFault σ :=
  match p.waiting with
  | none => .ok p.values
  | some (_, none) => .error .missingValue
  | some (slot, some text) => slot text p.values

namespace Form

def slot? (f : Form σ) (name : List Char) : Option (Slot σ) :=
  (f.slots.find? fun (k, _) => k.toList = name).map Prod.snd

def flag? (f : Form σ) (name : List Char) : Option Flag :=
  f.flags.find? fun g => g.name.toList = name

def letter? (f : Form σ) (c : Char) : Option Flag := f.flags.find? fun g => g.letter = c

def scan (f : Form σ) (p : Progress σ) : List String → Except UsageFault (Progress σ × List String)
  | [] => .ok (p, [])
  | w :: rest =>
    if p.closed then .ok (p, w :: rest)
    else match Shape.of w with
      | .terminator => f.scan { p with closed := true } rest
      | .long name value =>
        match f.slot? name, f.flag? name, value with
        | some slot, _, none => do
          let s ← p.settle
          f.scan ⟨s, some (slot, none), false⟩ rest
        | some slot, _, some text => do
          let s ← p.settle
          f.scan ⟨← slot text s, none, false⟩ rest
        | none, some flag, none => do
          let _ ← p.settle
          .error flag.ending
        | none, some _, some _ => .error (.valueNotTaken w)
        | none, none, _ => .error (.unknownArgument w)
      | .letters c =>
        match f.letter? c with
        | some flag => do
          let _ ← p.settle
          .error flag.ending
        | none => .error (.unknownArgument w)
      | .plain =>
        match p.waiting with
        | some (slot, none) => f.scan { p with waiting := some (slot, some w) } rest
        | _ => .ok (p, w :: rest)

def readAll (f : Form σ) (argument : Slot σ) (start : σ) (words : List String) : Except UsageFault σ := do
  match ← f.scan ⟨start, none, false⟩ words with
  | (p, []) => p.settle
  | (p, w :: rest) =>
    let s ← p.settle
    match ← f.scan { p with values := s, waiting := some (argument, some w) } rest with
    | (p, []) => p.settle
    | (_, w :: _) => .error (.unknownArgument w)

end Form

/-! ## Commands -/

structure Given where
  model : Option String := none
  format : Option Format := none
  settings : Option String := none

def modelSlot : Slot Given := .once (·.model) (fun x g => { g with model := some x }) readPath

def analyseForm : Form Given where
  flags := [helpFlag]
  slots := [
    ("format", .once (·.format) (fun x g => { g with format := some x }) readFormat),
    ("config", .once (·.settings) (fun x g => { g with settings := some x }) readPath)]

def statsForm : Form Given := ⟨[helpFlag], []⟩

def rootForm : Form (Option Level) where
  flags := [helpFlag, versionFlag]
  slots := [("log-level", .once id (fun l _ => some l) readLevel)]

def Given.requireModel (g : Given) : Except UsageFault String :=
  match g.model with
  | some m => .ok m
  | none => .error .missingModel

def readAnalyse (words : List String) : Except UsageFault Command := do
  let g ← analyseForm.readAll modelSlot {} words
  return .analyse (← g.requireModel) (g.format.getD .table) g.settings

def readStats (words : List String) : Except UsageFault Command := do
  let g ← statsForm.readAll modelSlot {} words
  return .stats (← g.requireModel)

def isCommand (word : String) : Bool := word ∈ ["analyse", "stats", "help"]

def helpOn : List String → UsageFault
  | [] => .help
  | [w] => if isCommand w then .help else .unknownCommand w
  | w :: v :: _ => .unknownCommand (if isCommand w then v else w)

def readCommand (word : String) (words : List String) : Except UsageFault Command :=
  if word = "analyse" then readAnalyse words
  else if word = "stats" then readStats words
  else if word = "help" then .error (helpOn words)
  else .error (.unknownCommand word)

/-- Reads the words of a user. The level is judged after the command's own words. -/
def Invocation.ofArguments (words : List String) : Except UsageFault Invocation := do
  match ← rootForm.scan ⟨none, none, false⟩ words with
  | (p, []) =>
    match ← p.settle with
    | none => .error .noArguments
    | some _ => .error .missingCommand
  | (p, w :: rest) =>
    if p.closed then .error (if isCommand w then .unknownArgument w else .unknownCommand w)
    else
      let command ← readCommand w rest
      let level ← p.settle
      return ⟨level.getD .info, command⟩

end SigmaMethod.CommandLine
