import SigmaMethod.Json.Codec
import SigmaMethod.Offsets.Analysis
import SigmaMethod.Settings

/-!
# Records as JSON

The codecs of everything that is stored: incidences, settings, matchings and analyses.
-/

namespace SigmaMethod.Json

open Codec Fields

def incidence : Codec Incidence :=
  (required "equation" nat <| required "variable" nat <| required "derivative" int done).codec.map
    (fun (i, j, x, ()) => ⟨i, j, x⟩) (fun e => (e.equation, e.unknown, e.derivative, ()))

def settings : Codec Settings :=
  let usual : Settings := {}
  (optional "row_reduction_sweeps" nat usual.sweeps <|
    optional "verify_duals" bool usual.verify <|
    optional "log_timing" bool usual.logTiming done).codec.map
    (fun (sweeps, verify, logTiming, ()) => ⟨sweeps, verify, logTiming⟩)
    (fun s => (s.sweeps, s.verify, s.logTiming, ()))

def matching : Codec Matching :=
  (required "cost" int <|
    required "rowsol" (array nat) <|
    required "colsol" (array nat) <|
    required "u" (array int) <|
    required "v" (array int) done).codec.map
    (fun (cost, columnOf, rowOf, u, v, ()) => ⟨cost, columnOf, rowOf, u, v⟩)
    (fun s => (s.cost, s.columnOf, s.rowOf, s.u, s.v, ()))

def partner : Codec (Option Nat) where
  tree
    | some k => .object [("Assigned", nat.tree k)]
    | none => .word "Unassigned"
  read := Case.read [.holding "Assigned" nat some, .bare "Unassigned" none]

def partialMatching : Codec PartialMatching :=
  (required "u" (array int) <|
    required "v" (array int) <|
    required "row_assignment" (array partner) <|
    required "col_assignment" (array partner) done).codec.map
    (fun (u, v, columnOf, rowOf, ()) => ⟨u, v, columnOf, rowOf⟩)
    (fun p => (p.u, p.v, p.columnOf, p.rowOf, ()))

def layout : Codec Layout :=
  (required "component_rows" (array nat) <|
    required "component_cols" (array nat) <|
    required "privates" (array nat) <|
    required "outer_rows" (array (option nat)) done).codec.map
    (fun (rows, columns, privates, outerRows, ()) => ⟨rows, columns, privates, outerRows⟩)
    (fun l => (l.componentRows, l.componentColumns, l.privates, l.outerRows, ()))

def analysis : Codec Analysis :=
  (required "c" (array int) <|
    required "d" (array int) <|
    required "row_assignment" (array nat) <|
    required "col_assignment" (array nat) <|
    required "cost" int <|
    field "inflation" (option layout) (some none) Option.isNone done).codec.map
    (fun (c, d, columnOf, rowOf, cost, layout, ()) => ⟨c, d, columnOf, rowOf, cost, layout⟩)
    (fun a => (a.c, a.d, a.columnOf, a.rowOf, a.cost, a.layout, ()))

def spaceName : IndexSpace → String
  | .equation => "equation"
  | .variable => "variable"
  | .newEquation => "new_equation"
  | .newVariable => "new_variable"
  | .componentEquation => "component_equation"
  | .privateVariable => "private_variable"
  | .publicVariable => "public_variable"
  | .componentInstance => "instance"

def indexSpaces : List IndexSpace :=
  [.equation, .variable, .newEquation, .newVariable, .componentEquation, .privateVariable,
    .publicVariable, .componentInstance]

def indexSpace : Codec IndexSpace where
  tree s := .word (spaceName s)
  read := Case.read (indexSpaces.map fun s => .bare (spaceName s) s)

end SigmaMethod.Json
