import SigmaMethod.CommandLine.Arguments
import SigmaMethod.CommandLine.Report
import SigmaMethod.Model
import SigmaMethod.Offsets.Analyse
import SigmaMethod.SettingsFile

/-!
# Running an invocation

The whole program as a function of the user's words and the files there are.
-/

namespace SigmaMethod.CommandLine

abbrev Files := String → Option ByteArray

inductive RunFault where
  | usage (fault : UsageFault)
  | settings (file : String) (fault : Text.LoadFault Unit)
  | model (file : String) (fault : Text.LoadFault Json.Fault)
  | building (refusal : Refusal)
  | analysing (file : String) (refusal : Refusal)
  | overflow

def loading {φ : Type} (kind file : String) : Text.LoadFault φ → String
  | .unreadable => s!"reading {kind} {file}"
  | .unparsable _ => s!"parsing {kind} {file}"

namespace RunFault

def context : RunFault → String
  | usage fault => fault.message
  | settings file fault => loading "config" file fault
  | model file fault => loading "model" file fault
  | building _ => "building incidence matrix"
  | analysing file _ => s!"analysing {file}"
  | overflow => "a number leaves its range"

def refusal? : RunFault → Option Refusal
  | building r => some r
  | analysing _ r => some r
  | _ => none

def exitCode : RunFault → Nat
  | usage .help => 0
  | usage .version => 0
  | usage _ => 2
  | overflow => 101
  | _ => 1

end RunFault

structure Printed where
  report : String := ""
  log : List String := []

/-- A run prints as it goes; what is out stays out when it fails later. -/
abbrev Run := ExceptT RunFault (StateM Printed)

def print (text : List Char) : Run Unit :=
  modify fun p => { p with report := p.report ++ String.ofList text }

def logLine (line : String) : Run Unit := modify fun p => { p with log := p.log ++ [line] }

def settled {α : Type} (fault : Refusal → RunFault) : Outcome α → Run α
  | .ok a => return a
  | .error (.refused r) => throw (fault r)
  | .error _ => throw .overflow

def loadSettings (files : Files) : Option String → Run Settings
  | none => return {}
  | some file => liftM ((Settings.load (files file)).mapError (RunFault.settings file))

def loadModel (files : Files) (file : String) : Run Model :=
  liftM ((Model.load (files file)).mapError (RunFault.model file))

/-- Analyses a model; the settings are loaded before it. The log tells the structural index of the analysis, and the
tables end with it; otherwise it is not computed. -/
def analyse (files : Files) (level : Level) (file : String) (format : Format)
    (settings : Option String) : Run Unit := do
  let settings ← loadSettings files settings
  let model ← loadModel files file
  let m ← settled .building model.signature
  let a ← settled (.analysing file) (m.analyse settings)
  if level.includes .info then
    let index ← settled (.analysing file) a.structuralIndex
    logLine s!"analysis complete: cost {a.cost}, structural index {index}"
  match format with
  | .table =>
    print (offsetTables a)
    print (indexLine (← settled (.analysing file) a.structuralIndex))
  | .json => print (analysisText a)

def stats (files : Files) (file : String) : Run Unit := do
  let model ← loadModel files file
  let m ← settled .building model.signature
  print (statistics file m)

def carryOut (files : Files) (i : Invocation) : Run Unit :=
  match i.command with
  | .analyse file format settings => analyse files i.level file format settings
  | .stats file => stats files file

def run (files : Files) (words : List String) : Except RunFault Unit × Printed :=
  match Invocation.ofArguments words with
  | .ok i => (carryOut files i).run.run {}
  | .error fault => (.error (.usage fault), {})

end SigmaMethod.CommandLine
