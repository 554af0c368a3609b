import Mathlib.Data.List.Forall2
import SigmaMethod.Checked

/-!
# What a computation delivers

`Delivers x P F` says what is known of an `Outcome` when no number overflows: an answer satisfies `P`, a refusal
satisfies `F`, and no access misses its vector. Overflow satisfies every such statement, since it ends the run without
an answer. There is one rule for each way to build a computation.
-/

namespace SigmaMethod

variable {α β : Type} {P : α → Prop} {Q : β → Prop} {F : Refusal → Prop}

def Delivers (x : Outcome α) (P : α → Prop) (F : Refusal → Prop) : Prop :=
  match x with
  | .ok a => P a
  | .error (.refused r) => F r
  | .error .overflow => True
  | .error .outOfBounds => False

/-- A computation that can only answer or overflow. -/
abbrev Yields (x : Outcome α) (P : α → Prop) : Prop := Delivers x P fun _ => False

@[simp] theorem refuse_bind {r : Refusal} {f : α → Outcome β} : (refuse r >>= f) = refuse r := rfl

@[simp] theorem ok_bind {a : α} {f : α → Outcome β} : (.ok a >>= f) = f a := rfl

@[simp] theorem refuse_eq_ok_iff {r : Refusal} {a : α} : refuse r = .ok a ↔ False := ⟨fun h => (nomatch h), False.elim⟩

@[simp] theorem ite_refuse_eq_ok_iff {guard : Prop} [Decidable guard] {r : Refusal} {x : Outcome α} {a : α} :
    (if guard then refuse r else x) = .ok a ↔ ¬ guard ∧ x = .ok a := by
  split <;> simp [*]

@[simp] theorem ite_eq_ok_iff {guard : Prop} [Decidable guard] {r : Refusal} {x : Outcome α} {a : α} :
    (if guard then x else refuse r) = .ok a ↔ guard ∧ x = .ok a := by
  split <;> simp [*]

theorem bind_eq_ok_iff {x : Outcome α} {f : α → Outcome β} {b : β} :
    (x >>= f) = .ok b ↔ ∃ a, x = .ok a ∧ f a = .ok b := by
  cases x with
  | ok a => exact ⟨fun h => ⟨a, rfl, h⟩, fun ⟨_, ha, h⟩ => by cases ha; exact h⟩
  | error e => exact ⟨fun h => (nomatch h), fun ⟨_, ha, _⟩ => (nomatch ha)⟩

theorem bind_eq_error_iff {x : Outcome α} {f : α → Outcome β} {e : Failure} :
    (x >>= f) = .error e ↔ x = .error e ∨ ∃ a, x = .ok a ∧ f a = .error e := by
  cases x with
  | ok a =>
    constructor
    · exact fun h => .inr ⟨a, rfl, h⟩
    · rintro (h | ⟨_, ha, h⟩)
      · cases h
      · cases ha
        exact h
  | error e' =>
    constructor
    · intro h
      cases h
      exact .inl rfl
    · rintro (h | ⟨_, ha, _⟩)
      · cases h
        rfl
      · cases ha

theorem bind_congr_ok {x : Outcome α} {f g : α → Outcome β} (h : ∀ a, x = .ok a → f a = g a) :
    (x >>= f) = (x >>= g) := by
  cases x with
  | ok a => exact h a rfl
  | error e => rfl

theorem map_eq_ok_iff {x : Outcome α} {f : α → β} {b : β} : x.map f = .ok b ↔ ∃ a, x = .ok a ∧ f a = b := by
  cases x with
  | ok a => simp [Except.map]
  | error e => simp [Except.map]

theorem isOk_iff {x : Outcome α} : x.isOk = true ↔ ∃ a, x = .ok a := by
  cases x with
  | ok a => simp [Except.isOk, Except.toBool]
  | error e => simp [Except.isOk, Except.toBool]

theorem forM_eq_ok_iff {l : List α} {f : α → Outcome Unit} {u : Unit} :
    l.forM f = .ok u ↔ ∀ a ∈ l, f a = .ok () := by
  induction l with
  | nil => exact ⟨fun _ a ha => (nomatch ha), fun _ => rfl⟩
  | cons a l ih =>
    rw [List.forM_eq_forM, List.forM_cons, bind_eq_ok_iff, List.forall_mem_cons, ← ih]
    exact ⟨fun ⟨_, ha, hl⟩ => ⟨ha, hl⟩, fun ⟨ha, hl⟩ => ⟨_, ha, hl⟩⟩

theorem forM_congr {l : List α} {f g : α → Outcome Unit} (h : ∀ a ∈ l, f a = g a) : l.forM f = l.forM g := by
  induction l with
  | nil => rfl
  | cons a l ih =>
    change (f a >>= fun _ => l.forM f) = (g a >>= fun _ => l.forM g)
    rw [h a List.mem_cons_self, ih fun b hb => h b (List.mem_cons_of_mem a hb)]

theorem forM_ne_refuse {l : List α} {f : α → Outcome PUnit} (h : ∀ a ∈ l, ∀ r, f a ≠ refuse r) (r : Refusal) :
    l.forM f ≠ refuse r := by
  induction l with
  | nil => exact fun h => nomatch h
  | cons a l ih =>
    rw [List.forM_eq_forM, List.forM_cons]
    have ha := h a List.mem_cons_self
    cases hf : f a with
    | ok _ => exact ih fun b hb => h b (List.mem_cons_of_mem _ hb)
    | error e =>
      rw [hf] at ha
      exact ha r

theorem forM_range_eq_error_iff {n : Nat} {f : Nat → Outcome Unit} {e : Failure} :
    (List.range n).forM f = .error e ↔ ∃ i < n, f i = .error e ∧ ∀ k < i, f k = .ok () := by
  induction n with
  | zero => exact ⟨fun h => (nomatch h), fun ⟨_, hi, _⟩ => absurd hi (Nat.not_lt_zero _)⟩
  | succ n ih =>
    have hlast : (List.range (n + 1)).forM f = (List.range n).forM f >>= fun _ => f n := by
      rw [List.range_succ, List.forM_eq_forM, List.forM_append, List.forM_cons, List.forM_nil]
      refine congrArg _ (funext fun _ => ?_)
      cases f n <;> rfl
    rw [hlast]
    cases hbefore : (List.range n).forM f with
    | error e' =>
      rw [hbefore] at ih
      change Except.error e' = .error e ↔ _
      rw [ih]
      refine ⟨fun ⟨i, hi, h⟩ => ⟨i, by omega, h⟩, fun ⟨i, hi, he, hok⟩ => ⟨i, ?_, he, hok⟩⟩
      refine Nat.lt_of_le_of_ne (Nat.le_of_lt_succ hi) fun hin => ?_
      rw [(forM_eq_ok_iff (u := ())).mpr fun k hk => hok k (hin ▸ List.mem_range.mp hk)] at hbefore
      cases hbefore
    | ok _ =>
      have hok : ∀ k < n, f k = .ok () := fun k hk => forM_eq_ok_iff.mp hbefore k (List.mem_range.mpr hk)
      rw [ok_bind]
      refine ⟨fun he => ⟨n, Nat.lt_succ_self n, he, hok⟩, fun ⟨i, hi, he, _⟩ => ?_⟩
      obtain rfl | hlt := Nat.eq_or_lt_of_le (Nat.le_of_lt_succ hi)
      · exact he
      · rw [hok i hlt] at he
        cases he

theorem forM_range_eq_error_iff_exists {n : Nat} {f : Nat → Outcome Unit} {e : Failure}
    (honly : ∀ i e', f i = .error e' → e' = e) : (List.range n).forM f = .error e ↔ ∃ i < n, f i = .error e := by
  refine ⟨fun h => ?_, fun ⟨i, hi, he⟩ => ?_⟩
  · obtain ⟨i, hi, he, -⟩ := forM_range_eq_error_iff.mp h
    exact ⟨i, hi, he⟩
  · cases h : (List.range n).forM f with
    | ok u =>
      rw [forM_eq_ok_iff.mp h i (List.mem_range.mpr hi)] at he
      cases he
    | error e' =>
      obtain ⟨k, -, he', -⟩ := forM_range_eq_error_iff.mp h
      rw [honly k e' he']

theorem mapM_eq_ok {l : List α} {f : α → Outcome β} {g : α → β} (h : ∀ a ∈ l, f a = .ok (g a)) :
    l.mapM f = .ok (l.map g) := by
  induction l with
  | nil => rfl
  | cons a l ih =>
    rw [List.mapM_cons, h a List.mem_cons_self, ih fun b hb => h b (List.mem_cons_of_mem _ hb)]
    rfl

theorem ofFnM_eq_ok {n : Nat} {f : Fin n → Outcome α} {g : Fin n → α} (h : ∀ i, f i = .ok (g i)) :
    Vector.ofFnM f = .ok (Vector.ofFn g) := by
  rw [funext h]
  exact Vector.ofFnM_pure

theorem mapM_of_refuses {l rest : List α} {a : α} {f : α → Outcome β} {r : Refusal} (ha : f a = refuse r)
    (hl : ∀ b ∈ l, ∃ y, f b = .ok y) : (l ++ a :: rest).mapM f = refuse r := by
  induction l with
  | nil => rw [List.nil_append, List.mapM_cons, ha, refuse_bind]
  | cons b l ih =>
    obtain ⟨y, hy⟩ := hl b List.mem_cons_self
    rw [List.cons_append, List.mapM_cons, hy, ok_bind, ih fun b hb => hl b (List.mem_cons_of_mem _ hb), refuse_bind]

/-- The rule for loops, of any statement on computations that has the rules for an answer and a sequence. `I` is told
which elements are done. -/
theorem foldlM_rule {R : Outcome β → (β → Prop) → Prop} (answer : ∀ {b : β} {P : β → Prop}, P b → R (pure b) P)
    (sequence : ∀ {x : Outcome β} {f : β → Outcome β} {P Q : β → Prop}, R x P → (∀ b, P b → R (f b) Q) → R (x >>= f) Q)
    {l : List α} {f : β → α → Outcome β} {I : List α → β → Prop} {b : β} (hb : I [] b)
    (step : ∀ done a b, done ++ [a] <+: l → I done b → R (f b a) (I (done ++ [a]))) : R (l.foldlM f b) (I l) := by
  suffices h : ∀ (rest done : List α) (b : β), done ++ rest = l → I done b → R (rest.foldlM f b) (I l) from
    h l [] b rfl hb
  intro rest
  induction rest with
  | nil =>
    intro done b hl hd
    rw [List.append_nil] at hl
    exact answer (hl ▸ hd)
  | cons a rest ih =>
    intro done b hl hd
    rw [List.foldlM_cons]
    have hl' : (done ++ [a]) ++ rest = l := by rw [← hl, List.append_assoc]; rfl
    exact sequence (step done a b ⟨rest, hl'⟩ hd) fun b' hb' => ih _ b' hl' hb'

theorem foldlM_invariant {l : List α} {f : β → α → Outcome β} {I : β → Prop} {b c : β}
    (step : ∀ a ∈ l, ∀ b b', I b → f b a = .ok b' → I b') (hb : I b) (h : l.foldlM f b = .ok c) : I c := by
  induction l generalizing b with
  | nil =>
    cases h
    exact hb
  | cons a l ih =>
    rw [List.foldlM_cons, bind_eq_ok_iff] at h
    obtain ⟨b', hb', h⟩ := h
    exact ih (fun a' ha' => step a' (List.mem_cons_of_mem a ha')) (step a List.mem_cons_self b b' hb hb') h

theorem foldlM_congr {l : List α} {f g : β → α → Outcome β} {b : β} (h : ∀ a ∈ l, ∀ b, f b a = g b a) :
    l.foldlM f b = l.foldlM g b := by
  induction l generalizing b with
  | nil => rfl
  | cons a l ih =>
    rw [List.foldlM_cons, List.foldlM_cons, h a List.mem_cons_self]
    exact congrArg _ (funext fun b => ih fun a' ha' => h a' (List.mem_cons_of_mem a ha'))

theorem checkIndex_eq_ok_iff {space : IndexSpace} {i bound : Nat} {x : Unit} :
    checkIndex space i bound = .ok x ↔ i < bound := by
  unfold checkIndex
  split <;> simp [*]

theorem checkIndex_of_lt {space : IndexSpace} {i bound : Nat} (h : i < bound) : checkIndex space i bound = .ok () :=
  if_pos h

theorem checkIndex_of_le {space : IndexSpace} {i bound : Nat} (h : bound ≤ i) :
    checkIndex space i bound = refuse (.invalidIndex space i bound) :=
  if_neg (Nat.not_lt.mpr h)

theorem fitIndex_eq_ok_iff {x y : Nat} : fitIndex x = .ok y ↔ x < 18446744073709551616 ∧ x = y := by
  unfold fitIndex
  split <;> simp [*]

theorem fitIndex_of_lt {x : Nat} (h : x < 18446744073709551616) : fitIndex x = .ok x := if_pos h

theorem lookAt_eq_ok_iff {xs : Array α} {i : Nat} {x : α} : lookAt xs i = .ok x ↔ xs[i]? = some x := by
  unfold lookAt
  cases xs[i]? <;> simp

theorem lookAt_eq_ok {xs : Array α} {i : Nat} (h : i < xs.size) : lookAt xs i = .ok xs[i] :=
  lookAt_eq_ok_iff.mpr (Array.getElem?_eq_getElem h)

theorem writeAt_eq_ok_iff {xs ys : Array α} {i : Nat} {x : α} :
    writeAt xs i x = .ok ys ↔ ∃ h : i < xs.size, ys = xs.set i x h := by
  unfold writeAt
  split <;> simp [*, eq_comm]

namespace Delivers

/-! ## Reading a statement off -/

theorem answer {x : Outcome α} {a : α} (h : Delivers x P F) (hx : x = .ok a) : P a := by
  subst hx; exact h

theorem refusal {x : Outcome α} {r : Refusal} (h : Delivers x P F) (hx : x = refuse r) : F r := by
  subst hx; exact h

theorem ne_outOfBounds {x : Outcome α} (h : Delivers x P F) : x ≠ .error .outOfBounds := by
  rintro rfl
  exact h

theorem cases {x : Outcome α} (h : Delivers x P F) (hx : x ≠ .error .overflow) :
    (∃ a, x = .ok a ∧ P a) ∨ ∃ r, x = refuse r ∧ F r := by
  match x, h, hx with
  | .ok a, h, _ => exact .inl ⟨a, rfl, h⟩
  | .error (.refused r), h, _ => exact .inr ⟨r, rfl, h⟩
  | .error .overflow, _, hx => exact absurd rfl hx

theorem exists_answer {x : Outcome α} (h : Delivers x P F) (hx : x ≠ .error .overflow) (hF : ∀ r, ¬ F r) :
    ∃ a, x = .ok a ∧ P a :=
  (h.cases hx).resolve_right fun ⟨r, _, hr⟩ => hF r hr

theorem exists_refusal {x : Outcome α} {e : Failure} (h : Delivers x P F) (hx : x ≠ .error .overflow)
    (he : x = .error e) : ∃ r, e = .refused r ∧ F r := by
  subst he
  match e, h, hx with
  | .refused r, h, _ => exact ⟨r, rfl, h⟩
  | .overflow, _, hx => exact absurd rfl hx

/-! ## Building computations -/

theorem mono {x : Outcome α} {P' : α → Prop} {F' : Refusal → Prop} (h : Delivers x P F)
    (hp : ∀ a, P a → P' a) (hf : ∀ r, F r → F' r) : Delivers x P' F' := by
  match x, h with
  | .ok a, h => exact hp a h
  | .error (.refused r), h => exact hf r h
  | .error .overflow, _ => trivial

theorem imp {x : Outcome α} {P' : α → Prop} (h : Delivers x P F) (hp : ∀ a, P a → P' a) :
    Delivers x P' F :=
  h.mono hp fun _ hr => hr

theorem attach {x : Outcome α} (h : Delivers x P F) : Delivers x (fun a => x = .ok a ∧ P a) F := by
  match x, h with
  | .ok a, h => exact ⟨rfl, h⟩
  | .error (.refused r), h => exact h
  | .error .overflow, _ => trivial

theorem widen {x : Outcome α} (h : Yields x P) : Delivers x P F :=
  h.mono (fun _ ha => ha) fun _ hr => hr.elim

theorem ok {a : α} (h : P a) : Delivers (.ok a) P F := h

theorem pure {a : α} (h : P a) : Delivers (Pure.pure a) P F := h

theorem refuse {r : Refusal} (h : F r) : Delivers (SigmaMethod.refuse r : Outcome α) P F := h

theorem bind {x : Outcome α} {f : α → Outcome β} (hx : Delivers x P F)
    (hf : ∀ a, P a → Delivers (f a) Q F) : Delivers (x >>= f) Q F := by
  match x, hx with
  | .ok a, hx => exact hf a hx
  | .error (.refused r), hx => exact hx
  | .error .overflow, _ => trivial

theorem fit {x : Int} {P : Int → Prop} (h : P x) : Delivers (SigmaMethod.fit x) P F := by
  unfold SigmaMethod.fit
  split
  · exact h
  · trivial

theorem fitIndex {x : Nat} {P : Nat → Prop} (h : P x) : Delivers (SigmaMethod.fitIndex x) P F := by
  unfold SigmaMethod.fitIndex
  split
  · exact h
  · trivial

theorem fitIndex_lt {x : Nat} : Delivers (SigmaMethod.fitIndex x) (fun y => y = x ∧ y < 18446744073709551616) F := by
  unfold SigmaMethod.fitIndex
  split
  · exact ⟨rfl, ‹_›⟩
  · trivial

theorem indexSub {a b : Nat} {P : Nat → Prop} (h : b ≤ a → P (a - b)) :
    Delivers (SigmaMethod.indexSub a b) P F := by
  unfold SigmaMethod.indexSub
  split
  · exact h ‹_›
  · trivial

theorem checkIndex {space : IndexSpace} {i bound : Nat} {P : Unit → Prop} (h : i < bound → P ())
    (hfail : ¬ i < bound → F (.invalidIndex space i bound)) : Delivers (SigmaMethod.checkIndex space i bound) P F := by
  unfold SigmaMethod.checkIndex
  split
  · exact h ‹_›
  · exact hfail ‹_›

theorem lookAt {xs : Array α} {i : Nat} (hi : i < xs.size) (h : P xs[i]) :
    Delivers (SigmaMethod.lookAt xs i) P F := by
  rw [SigmaMethod.lookAt, Array.getElem?_eq_getElem hi]
  exact h

theorem writeAt {xs : Array α} {i : Nat} {x : α} {P : Array α → Prop} (hi : i < xs.size)
    (h : P (xs.set i x hi)) : Delivers (SigmaMethod.writeAt xs i x) P F := by
  rw [SigmaMethod.writeAt, dif_pos hi]
  exact h

/-! ## Loops -/

/-- A loop keeps what each of its steps keeps; `I` is told which elements are done. -/
theorem foldlM_done {l : List α} {f : β → α → Outcome β} {I : List α → β → Prop} {b : β} (hb : I [] b)
    (step : ∀ done a b, done ++ [a] <+: l → I done b → Delivers (f b a) (I (done ++ [a])) F) :
    Delivers (l.foldlM f b) (I l) F :=
  foldlM_rule (R := fun x P => Delivers x P F) .pure .bind hb step

theorem foldlM {l : List α} {f : β → α → Outcome β} {I : β → Prop} {b : β} (hb : I b)
    (step : ∀ a ∈ l, ∀ b, I b → Delivers (f b a) I F) : Delivers (l.foldlM f b) I F :=
  foldlM_done (I := fun _ => I) hb fun done a b ha hb =>
    step a (ha.subset (List.mem_append_right done (List.mem_singleton_self a))) b hb

theorem forM {l : List α} {f : α → Outcome PUnit} {G : α → Prop} (step : ∀ a ∈ l, Delivers (f a) (fun _ => G a) F) :
    Delivers (l.forM f) (fun _ => ∀ a ∈ l, G a) F := by
  induction l with
  | nil => exact .pure fun a ha => nomatch ha
  | cons a l ih =>
    rw [List.forM_eq_forM, List.forM_cons]
    refine (step a List.mem_cons_self).bind fun _ ha => ?_
    refine (ih fun b hb => step b (List.mem_cons_of_mem a hb)).imp fun _ hl b hb => ?_
    rcases List.mem_cons.mp hb with rfl | hb
    · exact ha
    · exact hl b hb

theorem mapM {l : List α} {f : α → Outcome β} {R : α → β → Prop} (step : ∀ a ∈ l, Delivers (f a) (R a) F) :
    Delivers (l.mapM f) (List.Forall₂ R l) F := by
  induction l with
  | nil => exact .pure .nil
  | cons a l ih =>
    rw [List.mapM_cons]
    refine (step a List.mem_cons_self).bind fun b hb => ?_
    exact (ih fun c hc => step c (List.mem_cons_of_mem a hc)).bind fun bs hbs => .pure (.cons hb hbs)

end Delivers

end SigmaMethod
