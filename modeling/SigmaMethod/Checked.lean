import SigmaMethod.Refusal

/-!
# Bounded arithmetic and updates that can fail

Costs, offsets and potentials are 32-bit signed numbers and indices are 64-bit naturals. They are computed here in `Int`
and `Nat`, and each intermediate result is tested: one that does not fit ends the whole computation as
`Failure.overflow`, so an answer is never built on a wrapped number.

An `Update` is a command on a state. It keeps the state it reached when it fails, so that "a failed command changes
nothing" is a statement about a command, and not true by the type alone.
-/

namespace SigmaMethod

/-- Why a computation has no answer. Overflow and a missed access end a run; a refusal is an answer about the input. -/
inductive Failure where
  | overflow
  | outOfBounds
  | refused (refusal : Refusal)
deriving DecidableEq

abbrev Outcome := Except Failure

def refuse {α : Type} (r : Refusal) : Outcome α := .error (.refused r)

/-! ## Costs -/

def InRange (x : Int) : Prop := -2147483648 ≤ x ∧ x ≤ 2147483647

instance (x : Int) : Decidable (InRange x) := inferInstanceAs (Decidable (_ ∧ _))

def fit (x : Int) : Outcome Int := if InRange x then .ok x else .error .overflow

@[simp] theorem fit_eq_ok_iff {x y : Int} : fit x = .ok y ↔ InRange x ∧ x = y := by
  unfold fit; split <;> simp_all

@[simp] theorem fit_eq_error_iff {x : Int} {e : Failure} : fit x = .error e ↔ ¬ InRange x ∧ e = .overflow := by
  unfold fit; split <;> simp_all [eq_comm]

/-! ## Indices -/

def fitIndex (x : Nat) : Outcome Nat := if x < 18446744073709551616 then .ok x else .error .overflow

/-- The difference of two indices; there are no negative ones. -/
def indexSub (a b : Nat) : Outcome Nat := if b ≤ a then .ok (a - b) else .error .overflow

/-- Access to a vector of a record whose length nobody has tested. -/
def lookAt {α : Type} (xs : Array α) (i : Nat) : Outcome α :=
  match xs[i]? with
  | some x => .ok x
  | none => .error .outOfBounds

def writeAt {α : Type} (xs : Array α) (i : Nat) (x : α) : Outcome (Array α) :=
  if h : i < xs.size then .ok (xs.set i x h) else .error .outOfBounds

def inBound (space : IndexSpace) (i bound : Nat) : Outcome (Fin bound) :=
  if h : i < bound then .ok ⟨i, h⟩ else refuse (.invalidIndex space i bound)

def checkIndex (space : IndexSpace) (i bound : Nat) : Outcome Unit :=
  if i < bound then .ok () else refuse (.invalidIndex space i bound)

/-- The cost of an incidence is its negated derivative order, and orders are natural numbers. -/
def derivativeCost (equation unknown : Nat) (derivative : Int) : Outcome Int :=
  if derivative < 0 then refuse (.negativeDerivative equation unknown derivative)
  else fit (-derivative)

/-! ## Updates -/

abbrev Update (σ : Type) := ExceptT Failure (StateM σ)

namespace Update

variable {σ α : Type}

def apply (u : Update σ α) (s : σ) : Outcome α × σ := u.run.run s

def result (u : Update σ α) (s : σ) : Outcome σ :=
  match u.apply s with
  | (.ok _, t) => .ok t
  | (.error e, _) => .error e

end Update

end SigmaMethod
