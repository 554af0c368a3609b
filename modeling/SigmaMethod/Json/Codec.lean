import SigmaMethod.Json.Reader
import SigmaMethod.Json.Tree

/-!
# JSON and typed values

A `Codec` writes the values of a type as JSON and reads them back. Records are described by their `Fields`: they are
written as objects in the order of the fields, and read from objects in any order, or from lists in that order.
-/

namespace SigmaMethod.Json

structure Codec (α : Type) where
  tree : α → Tree
  read : Reader α

namespace Codec

variable {α β : Type}

def encode (c : Codec α) (a : α) : String := String.ofList (c.tree a).compact

def decode (c : Codec α) (text : String) : Except Fault α := do
  let (a, rest) ← c.read text.toList
  let _ ← finished rest
  return a

def map (c : Codec α) (make : α → β) (split : β → α) : Codec β where
  tree b := c.tree (split b)
  read := make <$> c.read

/-! ## Scalars -/

def integer (p : Int → Bool) : Codec Int where
  tree := .int
  read := do
    match ← look with
    | none => fail .truncated
    | some c =>
      if c = '-' ∨ c.isDigit then
        match ← number c with
        | .whole x => if p x then return x else fail .mistyped
        | .other => fail .mistyped
      else refuseValue

def nat : Codec Nat :=
  (integer fun x => decide (0 ≤ x ∧ x < 18446744073709551616)).map Int.toNat Int.ofNat

def int : Codec Int := integer fun x => decide (-2147483648 ≤ x ∧ x ≤ 2147483647)

def bool : Codec Bool where
  tree := .bool
  read := do
    match ← look with
    | none => fail .truncated
    | some 't' => expectRest "true".toList; return true
    | some 'f' => expectRest "false".toList; return false
    | some _ => refuseValue

def option (c : Codec α) : Codec (Option α) where
  tree
    | some a => c.tree a
    | none => .null
  read := do
    match ← look with
    | some 'n' => expectRest "null".toList; return none
    | _ => some <$> c.read

/-! ## Lists -/

/-- The items up to the closing bracket, put in front of `acc` the last one first. -/
def items (c : Codec α) : (fuel : Nat) → (first : Bool) → (acc : List α) → Reader (List α)
  | 0, _, _ => fail .truncated
  | fuel + 1, first, acc => do
    if ← nextItem first then items c fuel false ((← c.read) :: acc)
    else return acc.reverse

def list (c : Codec α) : Codec (List α) where
  tree as := .list (as.map c.tree)
  read := do
    match ← look with
    | none => fail .truncated
    | some '[' =>
      skipChar
      let as ← fun s => c.items (s.length + 1) true [] s
      closeList
      return as
    | some _ => refuseValue

def array (c : Codec α) : Codec (Array α) := c.list.map List.toArray Array.toList

end Codec

/-! ## Records -/

/-- The fields of a record: a name, a codec, a value to take when the field is missing, and the values that are not
written. -/
inductive Fields : Type → Type 1 where
  | done : Fields Unit
  | field {α β : Type} (name : String) (codec : Codec α) (missing : Option α) (hidden : α → Bool)
      (rest : Fields β) : Fields (α × β)

namespace Fields

def required {α β : Type} (name : String) (codec : Codec α) (rest : Fields β) : Fields (α × β) :=
  .field name codec none (fun _ => false) rest

def optional {α β : Type} (name : String) (codec : Codec α) (value : α) (rest : Fields β) : Fields (α × β) :=
  .field name codec (some value) (fun _ => false) rest

def Draft : {γ : Type} → Fields γ → Type
  | _, .done => Unit
  | _, @field α _ _ _ _ _ rest => Option α × rest.Draft

def blank : {γ : Type} → (fs : Fields γ) → fs.Draft
  | _, .done => ()
  | _, .field _ _ _ _ rest => (none, rest.blank)

/-- Reads the value of the field that `key` names; none if there is no such field. A field that is there already is
refused before its value is looked at. -/
def readNamed : {γ : Type} → (fs : Fields γ) → (key : List Char) → fs.Draft → Reader (Option fs.Draft)
  | _, .done, _ => fun _ => return none
  | _, @field α _ name codec _ _ rest, key => fun (draft : Option α × rest.Draft) =>
    if key = name.toList then
      match draft.1 with
      | some _ => fail .mistyped
      | none => do
        colon
        let a ← codec.read
        return some (some a, draft.2)
    else do
      match ← rest.readNamed key draft.2 with
      | some more => return some (draft.1, more)
      | none => return none

def finish : {γ : Type} → (fs : Fields γ) → fs.Draft → Reader γ
  | _, .done => fun _ => return ()
  | _, @field α _ _ _ missing _ rest => fun (draft : Option α × rest.Draft) =>
    match draft.1 <|> missing with
    | none => fail .mistyped
    | some a => do return (a, ← rest.finish draft.2)

def readMembers {γ : Type} (fs : Fields γ) : (fuel : Nat) → (first : Bool) → fs.Draft → Reader fs.Draft
  | 0, _, _ => fail .truncated
  | fuel + 1, first, draft => do
    if ← nextMember first then
      match ← fs.readNamed (← key) draft with
      | some draft => readMembers fs fuel false draft
      | none =>
        colon
        skipValue
        readMembers fs fuel false draft
    else return draft

def readItems : {γ : Type} → Fields γ → (first : Bool) → Reader γ
  | _, .done, _ => return ()
  | _, .field _ codec missing _ rest, first => do
    if ← nextItem first then
      let a ← codec.read
      return (a, ← rest.readItems false)
    else
      match missing with
      | some a => return (a, ← rest.readItems first)
      | none => fail .mistyped

def members : {γ : Type} → Fields γ → γ → List (String × Tree)
  | _, .done, () => []
  | _, .field name codec _ hidden rest, (a, g) =>
    if hidden a then rest.members g else (name, codec.tree a) :: rest.members g

def codec {γ : Type} (fs : Fields γ) : Codec γ where
  tree g := .object (fs.members g)
  read := do
    match ← look with
    | none => fail .truncated
    | some '[' =>
      skipChar
      let g ← fs.readItems true
      closeList
      return g
    | some '\x7b' =>
      skipChar
      let draft ← fun s => fs.readMembers (s.length + 1) true fs.blank s
      let g ← fs.finish draft
      skipChar
      return g
    | some _ => refuseValue

end Fields

/-! ## Choices -/

/-- One case of a choice: the value of the name alone, if it has one, and the reader of what follows when the name is
the key of an object. -/
structure Case (α : Type) where
  name : String
  alone : Option α
  payload : Reader α

namespace Case

variable {α : Type}

def readNull : Reader Unit := do
  match ← look with
  | none => fail .truncated
  | some 'n' => expectRest "null".toList
  | some _ => refuseValue

def bare (name : String) (a : α) : Case α := ⟨name, some a, do readNull; return a⟩

def holding {β : Type} (name : String) (codec : Codec β) (f : β → α) : Case α :=
  ⟨name, none, f <$> codec.read⟩

def named (cases : List (Case α)) (name : List Char) : Reader (Case α) :=
  match cases.find? fun c => c.name.toList = name with
  | some c => return c
  | none => fail .mistyped

/-- Reads a choice: a name, or an object with a name for its only key. Whatever else stands in the place of either is
malformed, also where it is JSON. -/
def read (cases : List (Case α)) : Reader α := do
  match ← look with
  | none => fail .truncated
  | some '"' =>
    match (← named cases (← key)).alone with
    | some a => return a
    | none => fail .mistyped
  | some '\x7b' =>
    skipChar
    match ← look with
    | some '"' =>
      let c ← named cases (← key)
      colon
      let a ← c.payload
      match ← look with
      | none => fail .truncated
      | some '\x7d' => skipChar; return a
      | some _ => fail .malformed
    | none => fail .truncated
    | some _ => fail .malformed
  | some _ => fail .malformed

end Case

end SigmaMethod.Json
