import SigmaMethod.Text.Digits

/-!
# Reading JSON

Readers take values off the front of a text. A text can fail in three ways, and the first failure met from left to right
counts: it ends too early, it is no JSON, or a value is not of the kind that is due. Values that nobody asked for are
skipped; they must be JSON, at any depth.
-/

namespace SigmaMethod.Json

inductive Fault where
  | truncated
  | malformed
  | mistyped
deriving DecidableEq

abbrev Reader := StateT (List Char) (Except Fault)

def fail {α : Type} (f : Fault) : Reader α := fun _ => .error f

def isBlank (c : Char) : Bool := c == ' ' || c == '\n' || c == '\t' || c == '\r'

def look : Reader (Option Char) := fun s =>
  let s := s.dropWhile isBlank
  .ok (s.head?, s)

def skipChar : Reader Unit := fun s => .ok ((), s.tail)

def expectRest : List Char → Reader Unit
  | [], s => .ok ((), s)
  | _ :: _, [] => .error .truncated
  | c :: cs, d :: s => if c = d then expectRest cs s else .error .malformed

/-! ## Strings -/

/-- Four hexadecimal digits. Four bytes that are no such digits are no JSON; fewer are a text that ends too early. -/
def hex4 : Reader Nat
  | a :: b :: c :: d :: rest =>
    match Text.hexVal? a, Text.hexVal? b, Text.hexVal? c, Text.hexVal? d with
    | some a, some b, some c, some d => .ok (((a * 16 + b) * 16 + c) * 16 + d, rest)
    | _, _, _, _ => .error .malformed
  | short =>
    if 4 ≤ short.foldl (fun k c => k + c.utf8Size) 0 then .error .malformed else .error .truncated

def simpleEscape? : Char → Option Char
  | '"' => some '"'
  | '\\' => some '\\'
  | '/' => some '/'
  | 'b' => some '\x08'
  | 'f' => some '\x0c'
  | 'n' => some '\n'
  | 'r' => some '\r'
  | 't' => some '\t'
  | _ => none

def lowSurrogate : Reader Nat
  | [] => .error .truncated
  | '\\' :: [] => .error .truncated
  | '\\' :: 'u' :: rest => do
    let (low, rest) ← hex4 rest
    if 0xDC00 ≤ low ∧ low ≤ 0xDFFF then .ok (low, rest) else .error .malformed
  | _ => .error .malformed

/-- The character of an escape, after the backslash. Surrogates are read in pairs only. -/
def escape : Reader Char
  | [] => .error .truncated
  | 'u' :: rest => do
    let (high, rest) ← hex4 rest
    if 0xDC00 ≤ high ∧ high ≤ 0xDFFF then .error .malformed
    else if 0xD800 ≤ high ∧ high ≤ 0xDBFF then
      let (low, rest) ← lowSurrogate rest
      .ok (Char.ofNat (0x10000 + (high - 0xD800) * 0x400 + (low - 0xDC00)), rest)
    else .ok (Char.ofNat high, rest)
  | c :: rest =>
    match simpleEscape? c with
    | some c => .ok (c, rest)
    | none => .error .malformed

def stringRest : (fuel : Nat) → (acc : List Char) → Reader (List Char)
  | 0, _, _ => .error .truncated
  | _ + 1, _, [] => .error .truncated
  | _ + 1, acc, '"' :: rest => .ok (acc.reverse, rest)
  | fuel + 1, acc, '\\' :: rest => do
    let (c, rest) ← escape rest
    stringRest fuel (c :: acc) rest
  | fuel + 1, acc, c :: rest =>
    if c.toNat < 0x20 then .error .malformed else stringRest fuel (c :: acc) rest

def string : Reader (List Char) := fun s => stringRest (s.length + 1) [] s

/-- Passes over an escape; lone surrogates do not matter here. -/
def skipEscape : Reader Unit
  | [] => .error .truncated
  | 'u' :: rest => do
    let (_, rest) ← hex4 rest
    .ok ((), rest)
  | c :: rest => if (simpleEscape? c).isSome then .ok ((), rest) else .error .malformed

def skipStringRest : (fuel : Nat) → Reader Unit
  | 0, _ => .error .truncated
  | _ + 1, [] => .error .truncated
  | _ + 1, '"' :: rest => .ok ((), rest)
  | fuel + 1, '\\' :: rest => do
    let (_, rest) ← skipEscape rest
    skipStringRest fuel rest
  | fuel + 1, c :: rest =>
    if c.toNat < 0x20 then .error .malformed else skipStringRest fuel rest

def skipString : Reader Unit := fun s => skipStringRest (s.length + 1) s

/-! ## Numbers -/

inductive Number where
  | whole (x : Int)
  | other
deriving DecidableEq

def maxSignificand : Nat := 18446744073709551615

def startsWithDigit (s : List Char) : Bool := s.head?.any Char.isDigit

def significand : (sig taken : Nat) → List Char → Nat × Nat × List Char
  | sig, taken, c :: rest =>
    if c.isDigit ∧ 10 * sig + Text.digitVal c ≤ maxSignificand then
      significand (10 * sig + Text.digitVal c) (taken + 1) rest
    else (sig, taken, c :: rest)
  | sig, taken, [] => (sig, taken, [])

/-- The natural number of 53 significant bits nearest to `n`, the even one of two. -/
def round53 (n : Nat) : Nat :=
  let drop := n.log2 - 52
  let unit := Nat.pow 2 drop
  let q := n / unit
  let r := n % unit
  let up := unit < 2 * r ∨ 2 * r = unit ∧ q % 2 = 1
  (if up then q + 1 else q) * unit

/-- Whether `sig * 10 ^ exp`, both factors and then their product rounded to 53 bits, is beyond the finite numbers of 64
bits. -/
def tooLarge (sig : Nat) (exp : Int) : Bool :=
  decide (0 < sig ∧ (308 < exp ∨
    0 ≤ exp ∧ Nat.pow 2 1024 - Nat.pow 2 970 ≤ round53 sig * round53 (Nat.pow 10 exp.toNat)))

def finite (sig : Nat) (exp : Int) : Reader Number := fun s =>
  if tooLarge sig exp then .error .malformed else .ok (.other, s)

/-- Follows the digits of an exponent; none if they exceed every exponent in use. -/
def exponentDigits : (exp : Nat) → List Char → Option Nat × List Char
  | exp, c :: rest =>
    if c.isDigit then
      if 10 * exp + Text.digitVal c ≤ 2147483647 then
        exponentDigits (10 * exp + Text.digitVal c) rest
      else (none, rest)
    else (some exp, c :: rest)
  | exp, [] => (some exp, [])

def exponentSign : List Char → Bool × List Char
  | '+' :: rest => (true, rest)
  | '-' :: rest => (false, rest)
  | s => (true, s)

def exponent (sig : Nat) (exp : Int) : Reader Number := fun s =>
  let (positive, s) := exponentSign s
  match s with
  | [] => .error .truncated
  | c :: rest =>
    if !c.isDigit then .error .malformed
    else
      match exponentDigits (Text.digitVal c) rest with
      | (none, rest) =>
        if sig ≠ 0 ∧ positive then .error .malformed
        else .ok (.other, rest.dropWhile Char.isDigit)
      | (some e, rest) => finite sig (if positive then exp + e else exp - e) rest

def exponent? (sig : Nat) (exp : Int) : Reader Number
  | 'e' :: rest => exponent sig exp rest
  | 'E' :: rest => exponent sig exp rest
  | s => finite sig exp s

/-- A fraction, after its point. Digits that the significand has no room for do not count. -/
def fraction (sig : Nat) (exp : Int) : Reader Number := fun s =>
  match significand sig 0 s with
  | (sig, taken, rest) =>
    if startsWithDigit rest then exponent? sig (exp - taken) (rest.dropWhile Char.isDigit)
    else if taken = 0 then
      if rest.isEmpty then .error .truncated else .error .malformed
    else exponent? sig (exp - taken) rest

def numberTail (positive : Bool) (sig : Nat) : Reader Number
  | '.' :: rest => fraction sig 0 rest
  | 'e' :: rest => exponent sig 0 rest
  | 'E' :: rest => exponent sig 0 rest
  | s =>
    if positive then .ok (.whole sig, s)
    else if sig = 0 then .ok (.other, s)
    else .ok (.whole (-sig), s)

def longTail (sig : Nat) : Reader Number := fun s =>
  let more := (s.takeWhile Char.isDigit).length
  match s.dropWhile Char.isDigit with
  | '.' :: rest => fraction sig more rest
  | rest => exponent? sig more rest

def unsigned (positive : Bool) : Reader Number
  | [] => .error .truncated
  | '0' :: rest => if startsWithDigit rest then .error .malformed else numberTail positive 0 rest
  | c :: rest =>
    if c.isDigit then
      match significand (Text.digitVal c) 1 rest with
      | (sig, _, rest) =>
        if startsWithDigit rest then longTail sig rest else numberTail positive sig rest
    else .error .malformed

def number (c : Char) : Reader Number := fun s =>
  if c = '-' then unsigned false s.tail else unsigned true s

def skipExponent : Reader Unit := fun s =>
  let (_, s) := exponentSign s
  if startsWithDigit s then .ok ((), s.dropWhile Char.isDigit) else .error .malformed

def skipNumberTail : Reader Unit
  | '.' :: rest =>
    if startsWithDigit rest then
      match rest.dropWhile Char.isDigit with
      | 'e' :: rest => skipExponent rest
      | 'E' :: rest => skipExponent rest
      | rest => .ok ((), rest)
    else .error .malformed
  | 'e' :: rest => skipExponent rest
  | 'E' :: rest => skipExponent rest
  | s => .ok ((), s)

def skipNumber : Reader Unit
  | '0' :: rest => if startsWithDigit rest then .error .malformed else skipNumberTail rest
  | s => if startsWithDigit s then skipNumberTail (s.dropWhile Char.isDigit) else .error .malformed

/-! ## Values nobody asked for -/

inductive Bracket where
  | square
  | curly
deriving DecidableEq

def Bracket.closing : Bracket → Char
  | .square => ']'
  | .curly => '\x7d'

inductive Place where
  | value
  | opened
  | key
  | behind

/-- One step of a skip, with the brackets that are open; none is the next place when it is done. -/
def skipStep : Place → List Bracket → Reader (Option Place × List Bracket)
  | .value, open_ => do
    match ← look with
    | none => fail .truncated
    | some '[' => skipChar; return (some .opened, .square :: open_)
    | some '\x7b' => skipChar; return (some .opened, .curly :: open_)
    | some '"' => skipChar; skipString; return (some .behind, open_)
    | some 'n' => expectRest "null".toList; return (some .behind, open_)
    | some 't' => expectRest "true".toList; return (some .behind, open_)
    | some 'f' => expectRest "false".toList; return (some .behind, open_)
    | some '-' => skipChar; skipNumber; return (some .behind, open_)
    | some c =>
      if c.isDigit then skipNumber; return (some .behind, open_)
      else fail .malformed
  | .opened, [] => return (none, [])
  | .opened, b :: open_ => do
    match ← look with
    | none => fail .truncated
    | some c =>
      if c = b.closing then skipChar; return (some .behind, open_)
      else return (some (if b = .curly then .key else .value), b :: open_)
  | .key, open_ => do
    match ← look with
    | none => fail .truncated
    | some '"' =>
      skipChar
      skipString
      match ← look with
      | none => fail .truncated
      | some ':' => skipChar; return (some .value, open_)
      | some _ => fail .malformed
    | some _ => fail .malformed
  | .behind, [] => return (none, [])
  | .behind, b :: open_ => do
    match ← look with
    | none => fail .truncated
    | some ',' => skipChar; return (some (if b = .curly then .key else .value), b :: open_)
    | some c =>
      if c = b.closing then skipChar; return (some .behind, open_)
      else fail .malformed

def skipLoop : (fuel : Nat) → Place → List Bracket → Reader Unit
  | 0, _, _ => fail .truncated
  | fuel + 1, place, open_ => do
    match ← skipStep place open_ with
    | (none, _) => return ()
    | (some place, open_) => skipLoop fuel place open_

/-- Passes over a value. Two steps at most take no character before one that does. -/
def skipValue : Reader Unit := fun s => skipLoop (3 * s.length + 3) .value [] s

/-! ## Values of another kind than is due -/

/-- The fault of a value that is not of the kind that is due: its own, if it has one, for a scalar is read before it is
refused. -/
def refuseValue {α : Type} : Reader α := do
  match ← look with
  | none => fail .truncated
  | some '"' => skipChar; let _ ← string; fail .mistyped
  | some '[' => fail .mistyped
  | some '\x7b' => fail .mistyped
  | some 'n' => expectRest "null".toList; fail .mistyped
  | some 't' => expectRest "true".toList; fail .mistyped
  | some 'f' => expectRest "false".toList; fail .mistyped
  | some c =>
    if c = '-' ∨ c.isDigit then
      let _ ← number c
      fail .mistyped
    else fail .malformed

/-! ## Punctuation -/

def nextItem (first : Bool) : Reader Bool := do
  match ← look with
  | none => fail .truncated
  | some ']' => return false
  | some c =>
    if first then return true
    else if c = ',' then
      skipChar
      match ← look with
      | none => fail .truncated
      | some ']' => fail .malformed
      | some _ => return true
    else fail .malformed

def closeList : Reader Unit := do
  match ← look with
  | none => fail .truncated
  | some ']' => skipChar
  | some _ => fail .malformed

def nextMember (first : Bool) : Reader Bool := do
  match ← look with
  | none => fail .truncated
  | some '\x7d' => return false
  | some c =>
    if first then
      if c = '"' then return true else fail .malformed
    else if c = ',' then
      skipChar
      match ← look with
      | none => fail .truncated
      | some '"' => return true
      | some _ => fail .malformed
    else fail .malformed

def key : Reader (List Char) := do
  skipChar
  string

def colon : Reader Unit := do
  match ← look with
  | none => fail .truncated
  | some ':' => skipChar
  | some _ => fail .malformed

def finished : Reader Unit := do
  match ← look with
  | none => return ()
  | some _ => fail .malformed

end SigmaMethod.Json
