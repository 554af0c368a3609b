import SigmaMethod.Text.Digits

/-!
# JSON to be written

The values that go out, and their two forms: compact, and indented by two blanks a level.
-/

namespace SigmaMethod.Json

/-- A JSON value. A word is a text without characters that JSON would escape. -/
inductive Tree where
  | null
  | bool (b : Bool)
  | int (x : Int)
  | word (w : String)
  | list (items : List Tree)
  | object (members : List (String × Tree))

def quoted (w : String) : List Char := '"' :: w.toList ++ ['"']

def boolText (b : Bool) : List Char := if b then "true".toList else "false".toList

/-! ## Compact -/

mutual

def Tree.compact : Tree → List Char
  | .null => "null".toList
  | .bool b => boolText b
  | .int x => Text.intText x
  | .word w => quoted w
  | .list items => '[' :: compactItems items
  | .object members => '\x7b' :: compactMembers members

def compactItems : List Tree → List Char
  | [] => [']']
  | [t] => t.compact ++ [']']
  | t :: rest => t.compact ++ ',' :: compactItems rest

def compactMembers : List (String × Tree) → List Char
  | [] => ['\x7d']
  | [(k, t)] => quoted k ++ ':' :: t.compact ++ ['\x7d']
  | (k, t) :: rest => quoted k ++ ':' :: t.compact ++ ',' :: compactMembers rest

end

/-! ## Indented -/

def newLine (level : Nat) : List Char := '\n' :: List.replicate (2 * level) ' '

mutual

def Tree.indented (level : Nat) : Tree → List Char
  | .null => "null".toList
  | .bool b => boolText b
  | .int x => Text.intText x
  | .word w => quoted w
  | .list [] => ['[', ']']
  | .list (t :: rest) => '[' :: newLine (level + 1) ++ t.indented (level + 1) ++ indentedItems level rest
  | .object [] => ['\x7b', '\x7d']
  | .object ((k, t) :: rest) => '\x7b' :: newLine (level + 1) ++ quoted k ++ [':', ' '] ++
      t.indented (level + 1) ++ indentedMembers level rest

def indentedItems (level : Nat) : List Tree → List Char
  | [] => newLine level ++ [']']
  | t :: rest => ',' :: newLine (level + 1) ++ t.indented (level + 1) ++ indentedItems level rest

def indentedMembers (level : Nat) : List (String × Tree) → List Char
  | [] => newLine level ++ ['\x7d']
  | (k, t) :: rest => ',' :: newLine (level + 1) ++ quoted k ++ [':', ' '] ++
      t.indented (level + 1) ++ indentedMembers level rest

end

end SigmaMethod.Json
