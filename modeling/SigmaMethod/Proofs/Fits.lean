import SigmaMethod.Proofs.Outcome

/-!
# Computations whose numbers fit

`Delivers` lets a run end by overflow. `Fits x P` does not: all numbers of the computation are in range and all accesses
hit, so it ends with an answer, which satisfies `P`, or with a refusal. There is one rule for each way to build a
computation, and `Fits.and` adds what the computation is known to deliver. `Succeeds x P` also rules a refusal out.
`EndsAs x y P` says how a computation ends that nobody has made safe: it fails exactly as the tests `y` do.
-/

namespace SigmaMethod

variable {α β : Type} {P : α → Prop} {Q : β → Prop}

def Fits (x : Outcome α) (P : α → Prop) : Prop :=
  match x with
  | .ok a => P a
  | .error (.refused _) => True
  | .error .overflow => False
  | .error .outOfBounds => False

namespace Fits

/-! ## Reading a statement off -/

theorem exists_refusal {x : Outcome α} {e : Failure} (h : Fits x P) (hx : x = .error e) : ∃ r, e = .refused r := by
  subst hx
  match e, h with
  | .refused r, _ => exact ⟨r, rfl⟩

theorem cases {x : Outcome α} {P' : α → Prop} {F : Refusal → Prop} (h : Fits x P) (hd : Delivers x P' F) :
    (∃ a, x = .ok a ∧ P a) ∨ ∃ r, x = SigmaMethod.refuse r ∧ F r := by
  match x, h, hd with
  | .ok a, h, _ => exact .inl ⟨a, rfl, h⟩
  | .error (.refused r), _, hd => exact .inr ⟨r, rfl, hd⟩

/-! ## Building computations -/

theorem imp {x : Outcome α} {P' : α → Prop} (h : Fits x P) (hp : ∀ a, P a → P' a) : Fits x P' := by
  match x, h with
  | .ok a, h => exact hp a h
  | .error (.refused r), _ => trivial

theorem and {x : Outcome α} {P' : α → Prop} {F : Refusal → Prop} (h : Fits x P) (hd : Delivers x P' F) :
    Fits x fun a => P a ∧ P' a := by
  match x, h, hd with
  | .ok a, h, hd => exact ⟨h, hd⟩
  | .error (.refused r), _, _ => trivial

theorem ok {a : α} (h : P a) : Fits (.ok a) P := h

theorem pure {a : α} (h : P a) : Fits (Pure.pure a) P := h

theorem refuse {r : Refusal} : Fits (SigmaMethod.refuse r : Outcome α) P := trivial

theorem bind {x : Outcome α} {f : α → Outcome β} (hx : Fits x P) (hf : ∀ a, P a → Fits (f a) Q) : Fits (x >>= f) Q := by
  match x, hx with
  | .ok a, hx => exact hf a hx
  | .error (.refused r), _ => trivial

theorem fit {x : Int} {P : Int → Prop} (hx : InRange x) (h : P x) : Fits (SigmaMethod.fit x) P := by
  unfold SigmaMethod.fit
  rw [if_pos hx]
  exact h

/-- A number that fits is the number that the rest goes on with. -/
theorem fit_bind {x : Int} {f : Int → Outcome β} (hx : InRange x) (hf : Fits (f x) Q) :
    Fits (SigmaMethod.fit x >>= f) Q := by
  unfold SigmaMethod.fit
  rw [if_pos hx]
  exact hf

theorem ok_bind {a : α} {f : α → Outcome β} (hf : Fits (f a) Q) : Fits (.ok a >>= f) Q := hf

theorem checkIndex {space : IndexSpace} {i bound : Nat} {P : Unit → Prop} (h : P ()) :
    Fits (SigmaMethod.checkIndex space i bound) P := by
  unfold SigmaMethod.checkIndex
  split
  · exact h
  · exact .refuse

theorem fitIndex {x : Nat} {P : Nat → Prop} (hx : x < 18446744073709551616) (h : P x) :
    Fits (SigmaMethod.fitIndex x) P := by
  rw [fitIndex_of_lt hx]
  exact h

theorem indexSub {a b : Nat} {P : Nat → Prop} (hle : b ≤ a) (h : P (a - b)) : Fits (SigmaMethod.indexSub a b) P := by
  unfold SigmaMethod.indexSub
  rw [if_pos hle]
  exact h

theorem lookAt {xs : Array α} {i : Nat} (hi : i < xs.size) (h : P xs[i]) : Fits (SigmaMethod.lookAt xs i) P := by
  rw [SigmaMethod.lookAt, Array.getElem?_eq_getElem hi]
  exact h

/-! ## Loops -/

/-- A loop keeps what each of its steps keeps; `I` is told which elements are done. -/
theorem foldlM_done {l : List α} {f : β → α → Outcome β} {I : List α → β → Prop} {b : β} (hb : I [] b)
    (step : ∀ done a b, done ++ [a] <+: l → I done b → Fits (f b a) (I (done ++ [a]))) : Fits (l.foldlM f b) (I l) :=
  foldlM_rule .pure .bind hb step

theorem foldlM {l : List α} {f : β → α → Outcome β} {I : β → Prop} {b : β} (hb : I b)
    (step : ∀ a ∈ l, ∀ b, I b → Fits (f b a) I) : Fits (l.foldlM f b) I :=
  foldlM_done (I := fun _ => I) hb fun done a b ha hb =>
    step a (ha.subset (List.mem_append_right done (List.mem_singleton_self a))) b hb

theorem forM {l : List α} {f : α → Outcome PUnit} (step : ∀ a ∈ l, Fits (f a) fun _ => True) :
    Fits (l.forM f) fun _ => True := by
  induction l with
  | nil => exact .pure trivial
  | cons a l ih =>
    rw [List.forM_eq_forM, List.forM_cons]
    exact (step a List.mem_cons_self).bind fun _ _ => ih fun b hb => step b (List.mem_cons_of_mem a hb)

end Fits

/-! ## Computations that succeed -/

def Succeeds (x : Outcome α) (P : α → Prop) : Prop := ∃ a, x = .ok a ∧ P a

theorem Fits.succeeds {x : Outcome α} (h : Fits x fun _ => True) (hd : Yields x P) : Succeeds x P := by
  rcases (h.and hd).cases hd with ⟨a, ha, -, hP⟩ | ⟨r, -, hr⟩
  · exact ⟨a, ha, hP⟩
  · exact hr.elim

namespace Succeeds

theorem imp {x : Outcome α} {P' : α → Prop} (h : Succeeds x P) (hp : ∀ a, P a → P' a) : Succeeds x P' := by
  obtain ⟨a, ha, hP⟩ := h
  exact ⟨a, ha, hp a hP⟩

theorem ok {a : α} (h : P a) : Succeeds (.ok a) P := ⟨a, rfl, h⟩

theorem pure {a : α} (h : P a) : Succeeds (Pure.pure a) P := ⟨a, rfl, h⟩

theorem bind {x : Outcome α} {f : α → Outcome β} (hx : Succeeds x P) (hf : ∀ a, P a → Succeeds (f a) Q) :
    Succeeds (x >>= f) Q := by
  obtain ⟨a, rfl, ha⟩ := hx
  exact hf a ha

theorem lookAt {xs : Array α} {i : Nat} (hi : i < xs.size) (h : P xs[i]) : Succeeds (SigmaMethod.lookAt xs i) P :=
  ⟨xs[i], lookAt_eq_ok hi, h⟩

theorem writeAt {xs : Array α} {i : Nat} {x : α} {P : Array α → Prop} (hi : i < xs.size) (h : P (xs.set i x hi)) :
    Succeeds (SigmaMethod.writeAt xs i x) P :=
  ⟨_, writeAt_eq_ok_iff.mpr ⟨hi, rfl⟩, h⟩

theorem foldlM {l : List α} {f : β → α → Outcome β} {I : β → Prop} {b : β} (hb : I b)
    (step : ∀ a ∈ l, ∀ b, I b → Succeeds (f b a) I) : Succeeds (l.foldlM f b) I :=
  foldlM_rule (I := fun _ => I) .pure .bind hb fun done a b ha hb =>
    step a (ha.subset (List.mem_append_right done (List.mem_singleton_self a))) b hb

end Succeeds

/-! ## Computations that end as tests do -/

/-- The computation fails as the tests `y` do, and else has an answer, which satisfies `P`. -/
def EndsAs (x : Outcome α) (y : Outcome Unit) (P : α → Prop) : Prop :=
  match y with
  | .ok _ => Succeeds x P
  | .error f => x = .error f

namespace EndsAs

variable {x : Outcome α} {y z : Outcome Unit}

theorem eq_error_iff {f : Failure} (h : EndsAs x y P) : x = .error f ↔ y = .error f := by
  cases y with
  | ok _ =>
    obtain ⟨a, rfl, -⟩ := h
    exact ⟨fun h => (nomatch h), fun h => (nomatch h)⟩
  | error g =>
    rw [show x = .error g from h, Except.error.injEq, Except.error.injEq]

theorem exists_iff (h : EndsAs x y P) : (∃ a, x = .ok a) ↔ y = .ok () := by
  cases y with
  | ok _ =>
    obtain ⟨a, rfl, -⟩ := h
    exact ⟨fun _ => rfl, fun _ => ⟨a, rfl⟩⟩
  | error f =>
    obtain rfl : x = .error f := h
    exact ⟨fun ⟨_, h⟩ => (nomatch h), fun h => (nomatch h)⟩

theorem bind {f : α → Outcome β} (hx : EndsAs x y P) (hf : ∀ a, P a → EndsAs (f a) z Q) :
    EndsAs (x >>= f) (y >>= fun _ => z) Q := by
  cases y with
  | ok _ =>
    obtain ⟨a, rfl, ha⟩ := hx
    exact hf a ha
  | error f =>
    obtain rfl : x = .error f := hx
    rfl

/-- What is known to succeed needs no test. -/
theorem bind_left {f : α → Outcome β} (hx : Succeeds x P) (hf : ∀ a, P a → EndsAs (f a) z Q) :
    EndsAs (x >>= f) z Q := by
  obtain ⟨a, rfl, ha⟩ := hx
  exact hf a ha

theorem bind_right {f : α → Outcome β} (hx : EndsAs x y P) (hf : ∀ a, P a → Succeeds (f a) Q) :
    EndsAs (x >>= f) y Q := by
  cases y with
  | ok _ =>
    obtain ⟨a, rfl, ha⟩ := hx
    exact hf a ha
  | error f =>
    obtain rfl : x = .error f := hx
    rfl

/-- A loop fails as the tests of its elements do, one after the other; `I` is told which elements are done. -/
theorem foldlM_done {l : List α} {f : β → α → Outcome β} {test : α → Outcome Unit} {I : List α → β → Prop} {b : β}
    (hb : I [] b) (step : ∀ done a b, done ++ [a] <+: l → I done b → EndsAs (f b a) (test a) (I (done ++ [a]))) :
    EndsAs (l.foldlM f b) (l.forM test) (I l) := by
  suffices h : ∀ (rest done : List α) (b : β), done ++ rest = l → I done b →
      EndsAs (rest.foldlM f b) (rest.forM test) (I l) from h l [] b rfl hb
  intro rest
  induction rest with
  | nil =>
    intro done b hl hd
    rw [List.append_nil] at hl
    exact Succeeds.pure (hl ▸ hd)
  | cons a rest ih =>
    intro done b hl hd
    have hl' : (done ++ [a]) ++ rest = l := by rw [← hl, List.append_assoc]; rfl
    rw [List.foldlM_cons, List.forM_eq_forM, List.forM_cons]
    exact (step done a b ⟨rest, hl'⟩ hd).bind fun b' hb' => ih _ b' hl' hb'

theorem foldlM {l : List α} {f : β → α → Outcome β} {test : α → Outcome Unit} {I : β → Prop} {b : β} (hb : I b)
    (step : ∀ a ∈ l, ∀ b, I b → EndsAs (f b a) (test a) I) : EndsAs (l.foldlM f b) (l.forM test) I :=
  foldlM_done (I := fun _ => I) hb fun done a b ha hb =>
    step a (ha.subset (List.mem_append_right done (List.mem_singleton_self a))) b hb

end EndsAs

end SigmaMethod
