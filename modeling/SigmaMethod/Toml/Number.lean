import SigmaMethod.Toml.Scan

/-!
# Numbers and dates of TOML

Integers have 64 bits and a sign; floating-point numbers must not lie above the finite ones; dates and times must be in
the calendar.
-/

namespace SigmaMethod.Toml

def groupedDigits (p : Char → Bool) : (fuel : Nat) → Scan (List Char)
  | 0 => failure
  | fuel + 1 => do
    let c ← charIf p
    let cs ← charsWhile p
    match ← attempt (char '_') with
    | some () => return c :: cs ++ (← groupedDigits p fuel)
    | none => return c :: cs

def grouped (p : Char → Bool) : Scan (List Char) := fun s => groupedDigits p (s.length + 1) s

def sign : Scan Bool := do
  match ← attempt (charIf fun c => c == '+' || c == '-') with
  | some c => return c == '-'
  | none => return false

def decimalDigits : Scan (List Char) := do
  if ← nextIs (· == '0') then
    char '0'
    return ['0']
  else grouped Char.isDigit

def valueOf (base : Nat) (ds : List Char) : Nat :=
  ds.foldl (fun n c => base * n + (Text.hexVal? c).getD 0) 0

def inWord (x : Int) : Scan Int :=
  if -9223372036854775808 ≤ x ∧ x ≤ 9223372036854775807 then return x else failure

def based (mark : String) (base : Nat) (p : Char → Bool) : Scan Int := do
  word mark
  inWord (valueOf base (← grouped p))

def decimalInteger : Scan Int := do
  let minus ← sign
  let n := valueOf 10 (← decimalDigits)
  inWord (if minus then -n else n)

def integer : Scan Int :=
  based "0x" 16 (fun c => (Text.hexVal? c).isSome) <|>
    based "0o" 8 (fun c => '0' ≤ c && c ≤ '7') <|>
    based "0b" 2 (fun c => c == '0' || c == '1') <|> decimalInteger

/-! ## Floating point -/

/-- Whether `sig * 10 ^ exp` rounds beyond the finite numbers of 64 bits; `digits` is the number of digits of `sig`. -/
def tooLarge (sig digits : Nat) (exp : Int) : Bool :=
  let limit : Nat := Nat.pow 2 1024 - Nat.pow 2 970
  if sig = 0 then false
  else if digits + exp < 300 then false
  else if 320 + digits < exp then true
  else if 0 ≤ exp then decide (limit ≤ sig * Nat.pow 10 exp.toNat)
  else decide (limit * Nat.pow 10 (-exp).toNat ≤ sig)

/-- An exponent; of one with many digits only that it is large is kept. -/
def exponent : Scan Int := do
  let _ ← charIf fun c => c == 'e' || c == 'E'
  let minus ← sign
  let ds ← grouped Char.isDigit
  let ds := ds.dropWhile (· == '0')
  let n := if ds.length ≤ 18 then valueOf 10 ds else 1000000000000000000
  return if minus then -n else n

/-- A number with a fraction, an exponent or both. It must not lie above the finite numbers; one below them stands for
negative infinity. -/
def decimalFloat : Scan Unit := do
  let minus ← sign
  let whole ← decimalDigits
  let tail ← match ← attempt (char '.') with
    | some () => do
      let fraction ← grouped Char.isDigit
      let exp ← attempt exponent
      pure (fraction, exp.getD 0)
    | none => do
      let exp ← exponent
      pure ([], exp)
  let ds := whole ++ tail.1
  let exp := tail.2 - (tail.1.length : Int)
  if !minus && tooLarge (valueOf 10 ds) ds.length exp then failure else return ()

def specialFloat : Scan Unit := do
  let _ ← sign
  word "inf" <|> word "nan"

def float : Scan Unit := decimalFloat <|> specialFloat

/-! ## Dates and times -/

def fixedDigits (count : Nat) : Scan Nat := do
  let ds ← (List.range count).mapM fun _ => charIf Char.isDigit
  return valueOf 10 ds

def twoDigits (low high : Nat) : Scan Nat := do
  let n ← fixedDigits 2
  if low ≤ n ∧ n ≤ high then return n else failure

def isLeap (year : Nat) : Bool := year % 4 == 0 && (year % 100 != 0 || year % 400 == 0)

def daysIn (year month : Nat) : Nat :=
  if month = 2 then if isLeap year then 29 else 28
  else if month = 4 ∨ month = 6 ∨ month = 9 ∨ month = 11 then 30
  else 31

def date : Scan Unit := do
  let year ← fixedDigits 4
  char '-'
  let month ← twoDigits 1 12
  char '-'
  let _ ← twoDigits 1 (daysIn year month)

def time : Scan Unit := do
  let _ ← twoDigits 0 23
  char ':'
  let _ ← twoDigits 0 59
  char ':'
  let _ ← twoDigits 0 60
  match ← attempt (char '.') with
  | some () => do
    let ds ← charsWhile Char.isDigit
    if ds.isEmpty then failure
  | none => return ()

def zone : Scan Unit :=
  (do let _ ← charIf fun c => c == 'Z' || c == 'z') <|> do
    let _ ← charIf fun c => c == '+' || c == '-'
    let _ ← twoDigits 0 23
    char ':'
    let _ ← twoDigits 0 59

def moment : Scan Unit :=
  (do
    date
    match ← attempt (do let _ ← charIf fun c => c == 'T' || c == 't' || c == ' '; time) with
    | some () => do let _ ← attempt zone
    | none => return ()) <|> time

end SigmaMethod.Toml
