import SigmaMethod.Text.Digits

/-!
# Pieces of TOML

Blanks, comments, line ends, strings and keys, as the TOML 1.0 grammar has them.
-/

namespace SigmaMethod.Toml

abbrev Scan := StateT (List Char) Option

def charIf (p : Char → Bool) : Scan Char
  | c :: rest => if p c then some (c, rest) else none
  | [] => none

def char (c : Char) : Scan Unit := do let _ ← charIf (· == c)

def word (word : String) : Scan Unit := word.toList.forM char

def charsWhile (p : Char → Bool) : Scan (List Char) := fun s =>
  some (s.takeWhile p, s.dropWhile p)

def nextIs (p : Char → Bool) : Scan Bool := fun s => some (s.head?.any p, s)

def attempt {α : Type} (scan : Scan α) : Scan (Option α) := fun s =>
  match scan s with
  | some (a, rest) => some (some a, rest)
  | none => some (none, s)

def atEnd : Scan Unit
  | [] => some ((), [])
  | _ => none

def isBlank (c : Char) : Bool := c == ' ' || c == '\t'

def blanks : Scan Unit := do let _ ← charsWhile isBlank

def newline : Scan Unit
  | '\n' :: rest => some ((), rest)
  | '\r' :: '\n' :: rest => some ((), rest)
  | _ => none

def isText (c : Char) : Bool := c == '\t' || 0x20 ≤ c.toNat && c.toNat != 0x7f

def comment : Scan Unit := do
  char '#'
  let _ ← charsWhile isText

def lineRest : Scan Unit := do
  blanks
  let _ ← attempt comment
  newline <|> atEnd

/-! ## Strings -/

def scalar (digits : Nat) : Scan Char := do
  let ds ← (List.range digits).mapM fun _ => charIf fun c => (Text.hexVal? c).isSome
  let n := ds.foldl (fun n c => 16 * n + (Text.hexVal? c).getD 0) 0
  if n < 0xD800 ∨ 0xDFFF < n ∧ n ≤ 0x10FFFF then return Char.ofNat n else failure

def escape : Scan Char := do
  match ← charIf fun _ => true with
  | 'b' => return '\x08'
  | 't' => return '\t'
  | 'n' => return '\n'
  | 'f' => return '\x0c'
  | 'r' => return '\r'
  | '"' => return '"'
  | '\\' => return '\\'
  | 'u' => scalar 4
  | 'U' => scalar 8
  | _ => failure

def basicRest : (fuel : Nat) → (acc : List Char) → Scan (List Char)
  | 0, _ => failure
  | fuel + 1, acc => do
    match ← charIf isText with
    | '"' => return acc.reverse
    | '\\' => basicRest fuel ((← escape) :: acc)
    | c => basicRest fuel (c :: acc)

def basicString : Scan (List Char) := do
  char '"'
  fun s => basicRest (s.length + 1) [] s

def literalString : Scan (List Char) := do
  char '\x27'
  let cs ← charsWhile fun c => isText c && c != '\x27'
  char '\x27'
  return cs

def gap : (fuel : Nat) → Scan Unit
  | 0 => failure
  | fuel + 1 => do
    blanks
    match ← attempt newline with
    | some () => gap fuel
    | none => return ()

/-- The rest of a string over several lines in three quotes each side; escapes are known if `escapes` says so. Up to two
quotes in a row are part of the string, also before the last three. -/
def longRest (quote : Char) (escapes : Bool) : (fuel : Nat) → Scan Unit
  | 0 => failure
  | fuel + 1 => do
    if ← nextIs (· == quote) then
      let run ← charsWhile (· == quote)
      if run.length < 3 then longRest quote escapes fuel
      else if run.length ≤ 5 then return ()
      else failure
    else if escapes && (← nextIs (· == '\\')) then
      char '\\'
      match ← attempt (do blanks; newline) with
      | some () => do
        fun s => gap (s.length + 1) s
        longRest quote escapes fuel
      | none => do
        let _ ← escape
        longRest quote escapes fuel
    else
      match ← attempt newline with
      | some () => longRest quote escapes fuel
      | none => do
        let _ ← charIf isText
        longRest quote escapes fuel

def longString (quote : Char) (escapes : Bool) : Scan Unit := do
  word (String.ofList [quote, quote, quote])
  fun s => longRest quote escapes (s.length + 1) s

def anyString : Scan Unit :=
  longString '"' true <|> (do let _ ← basicString) <|>
    longString '\x27' false <|> (do let _ ← literalString)

/-! ## Keys -/

def isBare (c : Char) : Bool := c.isAlphanum || c == '-' || c == '_'

def simpleKey : Scan (List Char) := do
  if ← nextIs (· == '"') then basicString
  else if ← nextIs (· == '\x27') then literalString
  else
    let cs ← charsWhile isBare
    if cs.isEmpty then failure else return cs

def maxDepth : Nat := 80

def moreKeys : (fuel : Nat) → Scan (List (List Char))
  | 0 => return []
  | fuel + 1 => do
    match ← attempt (do char '.'; blanks; simpleKey) with
    | some k => do
      blanks
      return k :: (← moreKeys fuel)
    | none => return []

/-- A key with its dots, and the blanks around its parts: all parts but the last, and the last. -/
def key : Scan (List (List Char) × List Char) := do
  blanks
  let first ← simpleKey
  blanks
  let more ← fun s => moreKeys s.length s
  let parts := first :: more
  if parts.length < maxDepth then return (parts.dropLast, parts.getLastD first) else failure

end SigmaMethod.Toml
