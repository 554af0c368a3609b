import SigmaMethod.Toml.Number

/-!
# TOML documents

A document is a table. Of its values only integers and truth values are kept, and that a value of another kind is there.
Tables are defined once: by a header, by a dotted key, or implicitly by a header further down, and each way has its own
rules for what may be added later.
-/

namespace SigmaMethod.Toml

/-- A value in a document. An implicit table was only named on the way to another one; a dotted one was made by a dotted
key. Of an array of tables the last one counts for what follows. -/
inductive Item where
  | integer (x : Int)
  | bool (b : Bool)
  | other
  | table (implicit dotted : Bool) (members : List (List Char × Item))
  | tables (last : List (List Char × Item))

structure Table where
  implicit : Bool
  dotted : Bool
  members : List (List Char × Item)

namespace Table

def empty : Table := ⟨false, false, []⟩

def item (t : Table) : Item := .table t.implicit t.dotted t.members

def find? (t : Table) (k : List Char) : Option Item :=
  (t.members.find? fun m => m.1 = k).map (·.2)

def erase (t : Table) (k : List Char) : Table :=
  { t with members := t.members.filter fun m => m.1 ≠ k }

def put (t : Table) (k : List Char) (x : Item) : Table :=
  { t with members := (t.erase k).members ++ [(k, x)] }

/-- Applies `f` to the table at the end of a path. Tables that are missing on the way are made, implicit ones. A dotted
path does not go through tables that are defined already. -/
def modifyAt (dotted : Bool) (f : Table → Option Table) : List (List Char) → Table → Option Table
  | [], t => f t
  | k :: path, t =>
    match t.find? k with
    | none => (modifyAt dotted f path ⟨true, dotted, []⟩).map fun c => t.put k c.item
    | some (.table implicit isDotted members) =>
      if dotted && !implicit then none
      else (modifyAt dotted f path ⟨implicit, isDotted, members⟩).map fun c => t.put k c.item
    | some (.tables last) =>
      (modifyAt dotted f path ⟨false, false, last⟩).map fun c => t.put k (.tables c.members)
    | some _ => none

def define (simple : Bool) (k : List Char) (x : Item) (t : Table) : Option Table :=
  if t.dotted = simple then none
  else
    match t.find? k with
    | some _ => none
    | none => some (t.put k x)

def assign (t : Table) (path : List (List Char)) (k : List Char) (x : Item) : Option Table :=
  t.modifyAt true (define path.isEmpty k x) path

def tableAt (t : Table) (path : List (List Char)) : Option Table :=
  match path with
  | [] => some t
  | k :: path =>
    match t.find? k with
    | none => some ⟨true, false, []⟩
    | some (.table implicit dotted members) => tableAt ⟨implicit, dotted, members⟩ path
    | some (.tables last) => tableAt ⟨false, false, last⟩ path
    | some _ => none

end Table

/-! ## Values -/

def arrayGap : (fuel : Nat) → Scan Unit
  | 0 => failure
  | fuel + 1 => do
    blanks
    match ← attempt (do let _ ← attempt comment; newline) with
    | some () => arrayGap fuel
    | none => return ()

def anyGap : Scan Unit := fun s => arrayGap (s.length + 1) s

def numeric : Scan Item :=
  (do moment; return .other) <|> (do float; return .other) <|> (do return .integer (← integer))

mutual

def value : (fuel depth : Nat) → Scan Item
  | 0, _ => failure
  | fuel + 1, depth => do
    match ← (fun s => some (s.head?, s) : Scan (Option Char)) with
    | none => failure
    | some c =>
      if c == '"' || c == '\x27' then
        anyString
        return .other
      else if c == '[' then
        if depth + 1 < maxDepth then
          char '['
          arrayItems fuel (depth + 1)
          return .other
        else failure
      else if c == '\x7b' then
        if depth + 1 < maxDepth then
          char '\x7b'
          blanks
          if ← nextIs (· == '\x7d') then char '\x7d'
          else
            let _ ← inlineMembers fuel (depth + 1) .empty
          return .other
        else failure
      else if c == '+' || c == '-' || c.isDigit then numeric
      else if c == 't' then
        word "true"
        return .bool true
      else if c == 'f' then
        word "false"
        return .bool false
      else if c == 'i' || c == 'n' then
        specialFloat
        return .other
      else failure

def arrayItems : (fuel depth : Nat) → Scan Unit
  | 0, _ => failure
  | fuel + 1, depth => do
    anyGap
    if ← nextIs (· == ']') then char ']'
    else
      let _ ← value fuel depth
      anyGap
      if ← nextIs (· == ',') then
        char ','
        arrayItems fuel depth
      else char ']'

def inlineMembers : (fuel depth : Nat) → Table → Scan Table
  | 0, _, _ => failure
  | fuel + 1, depth, t => do
    let (path, k) ← key
    char '='
    blanks
    let x ← value fuel depth
    -- A table written inline is complete, so a dotted key cannot go through it.
    match t.assign path k x with
    | none => failure
    | some t =>
      blanks
      if ← nextIs (· == ',') then
        char ','
        inlineMembers fuel depth t
      else
        char '\x7d'
        return t

end

/-! ## Documents -/

/-- A document under way: the root, the table that keys go to now, and where it belongs; `inArray` says that it is a new
member of an array of tables. -/
structure Draft where
  root : Table
  current : Table
  path : List (List Char)
  name : Option (List Char)
  inArray : Bool

namespace Draft

def start : Draft := ⟨.empty, .empty, [], none, false⟩

def close (d : Draft) : Option Table :=
  match d.name with
  | none => some d.current
  | some k =>
    let place (parent : Table) : Option Table :=
      some (parent.put k (if d.inArray then .tables d.current.members else d.current.item))
    d.root.modifyAt false place d.path

/-- Starts the table of a header. A table that was only implied so far is taken up. -/
def openTable (d : Draft) (path : List (List Char)) (k : List Char) : Option Draft := do
  let root ← d.close
  let parent ← root.tableAt path
  match parent.find? k with
  | none =>
    let root ← root.modifyAt false some path
    return ⟨root, .empty, path, some k, false⟩
  | some (.table true false members) =>
    let root ← root.modifyAt false (fun t => some (t.erase k)) path
    return ⟨root, ⟨false, false, members⟩, path, some k, false⟩
  | some _ => none

def openMember (d : Draft) (path : List (List Char)) (k : List Char) : Option Draft := do
  let root ← d.close
  let parent ← root.tableAt path
  match parent.find? k with
  | none | some (.tables _) =>
    let root ← root.modifyAt false some path
    return ⟨root, .empty, path, some k, true⟩
  | some _ => none

end Draft

def header (d : Draft) : Scan Draft := do
  char '['
  let double ← nextIs (· == '[')
  if double then char '['
  let (path, k) ← key
  char ']'
  if double then char ']'
  lineRest
  match if double then d.openMember path k else d.openTable path k with
  | some d => return d
  | none => failure

def assignment (d : Draft) : Scan Draft := do
  let (path, k) ← key
  char '='
  blanks
  let x ← fun s => value (2 * s.length + 2) 0 s
  lineRest
  match d.current.assign path k x with
  | some current => return { d with current }
  | none => failure

def lines : (fuel : Nat) → Draft → Scan Draft
  | 0, _ => failure
  | fuel + 1, d => do
    blanks
    match ← (fun s => some (s.head?, s) : Scan (Option Char)) with
    | none => return d
    | some c =>
      if c == '#' then
        lineRest
        lines fuel d
      else if c == '[' then lines fuel (← header d)
      else if c == '\n' || c == '\r' then
        newline
        lines fuel d
      else lines fuel (← assignment d)

def read? (text : String) : Option Table :=
  let s := text.toList
  let s := if s.head? = some '\uFEFF' then s.tail else s
  match lines (s.length + 1) .start s with
  | some (d, _) => d.close
  | none => none

end SigmaMethod.Toml
