import SigmaMethod.Settings
import SigmaMethod.Text.File
import SigmaMethod.Toml.Document

/-!
# Settings files

Settings are written as the keys of a TOML document. A key that is missing has its default; keys that are none of theirs
are passed over.
-/

namespace SigmaMethod.Settings

def natAt (t : Toml.Table) (k : String) (default : Nat) : Option Nat :=
  match t.find? k.toList with
  | none => some default
  | some (.integer x) => if 0 ≤ x then some x.toNat else none
  | some _ => none

def boolAt (t : Toml.Table) (k : String) (default : Bool) : Option Bool :=
  match t.find? k.toList with
  | none => some default
  | some (.bool b) => some b
  | some _ => none

def ofTable (t : Toml.Table) : Option Settings := do
  let usual : Settings := {}
  return {
    sweeps := ← natAt t "row_reduction_sweeps" usual.sweeps
    verify := ← boolAt t "verify_duals" usual.verify
    logTiming := ← boolAt t "log_timing" usual.logTiming
  }

def load (content : Option ByteArray) : Except (Text.LoadFault Unit) Settings := do
  let text ← Text.ofFile content
  match Toml.read? text >>= ofTable with
  | some s => return s
  | none => throw (.unparsable ())

end SigmaMethod.Settings
