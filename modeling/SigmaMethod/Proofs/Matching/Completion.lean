import SigmaMethod.Proofs.Fits
import SigmaMethod.Proofs.Matching.Restart

/-!
# Completing a partial matching

A record is read only after `validate` has accepted it, and then every access to its vectors is in range:
`solveDeltaTested` tests each of them and is the same computation. What a restart makes of an accepted record depends on
its potentials. If they prove the given pairs optimal, the matching is of least cost. If they are arbitrary it is still
a transversal, and the test of the potentials lets only optimal ones pass.
-/

namespace SigmaMethod

variable {n : Nat} {m : Signature n} {p : PartialMatching} {settings : Settings}

/-! ## Every access in range -/

namespace PartialMatching

def checkRowTested (p : PartialMatching) (m : Signature n) (i : Nat) : Outcome Unit := do
  match ← lookAt p.columnOf i with
  | some j => do
    checkIndex .variable j n
    if (← lookAt p.rowOf j) ≠ some i then refuse (.inconsistentMatching (.rowNotReturned i j))
    if (m.cost? i j).isNone then refuse (.inconsistentMatching (.noIncidence i j))
  | none => .ok ()

def checkColumnTested (p : PartialMatching) (n j : Nat) : Outcome Unit := do
  match ← lookAt p.rowOf j with
  | some i => do
    checkIndex .equation i n
    if (← lookAt p.columnOf i) ≠ some j then refuse (.inconsistentMatching (.columnNotReturned j i))
  | none => .ok ()

def validateTested (p : PartialMatching) (m : Signature n) : Outcome Unit := do
  checkSizes n [p.u.size, p.v.size, p.columnOf.size, p.rowOf.size]
  (List.range n).forM (p.checkRowTested m)
  (List.range n).forM (p.checkColumnTested n)

def readIndex (n : Nat) : Option Nat → Outcome (Option (Fin n))
  | none => .ok none
  | some k => if h : k < n then .ok (some ⟨k, h⟩) else .error .outOfBounds

def startTested (p : PartialMatching) (n : Nat) : Outcome (DualAssignment n × Vector Int n) := do
  let u ← Vector.ofFnM fun i : Fin n => lookAt p.u i
  let v ← Vector.ofFnM fun j : Fin n => lookAt p.v j
  let columnOf ← Vector.ofFnM fun i : Fin n => lookAt p.columnOf i >>= readIndex n
  let rowOf ← Vector.ofFnM fun j : Fin n => lookAt p.rowOf j >>= readIndex n
  return (⟨v, columnOf, rowOf⟩, u)

theorem checkRowTested_eq (hcolumnOf : p.columnOf.size = n) (hrowOf : p.rowOf.size = n) {i : Nat} (hi : i < n) :
    p.checkRowTested m i = p.checkRow m i := by
  unfold checkRowTested checkRow
  rw [lookAt_eq_ok (hcolumnOf ▸ hi), Array.getElem?_eq_getElem (hcolumnOf ▸ hi)]
  cases hj : p.columnOf[i] with
  | none => rfl
  | some j =>
    refine bind_congr_ok (x := checkIndex .variable j n) fun _ hindex => ?_
    have hj : j < p.rowOf.size := hrowOf ▸ checkIndex_eq_ok_iff.mp hindex
    rw [lookAt_eq_ok hj, Array.getElem?_eq_getElem hj]
    simp only [ne_eq, Option.some.injEq]
    rfl

theorem checkColumnTested_eq (hcolumnOf : p.columnOf.size = n) (hrowOf : p.rowOf.size = n) {j : Nat} (hj : j < n) :
    p.checkColumnTested n j = p.checkColumn n j := by
  unfold checkColumnTested checkColumn
  rw [lookAt_eq_ok (hrowOf ▸ hj), Array.getElem?_eq_getElem (hrowOf ▸ hj)]
  cases hi : p.rowOf[j] with
  | none => rfl
  | some i =>
    refine bind_congr_ok (x := checkIndex .equation i n) fun _ hindex => ?_
    have hi : i < p.columnOf.size := hcolumnOf ▸ checkIndex_eq_ok_iff.mp hindex
    rw [lookAt_eq_ok hi, Array.getElem?_eq_getElem hi]
    simp only [ne_eq, Option.some.injEq]
    rfl

theorem validateTested_eq (p : PartialMatching) (m : Signature n) : p.validateTested m = p.validate m := by
  unfold validateTested validate
  refine bind_congr_ok fun _ hsizes => ?_
  rw [checkSizes_eq_ok_iff] at hsizes
  simp only [List.forall_mem_cons] at hsizes
  obtain ⟨-, -, hcolumnOf, hrowOf, -⟩ := hsizes
  rw [forM_congr fun i hi => checkRowTested_eq hcolumnOf hrowOf (List.mem_range.mp hi),
    forM_congr fun j hj => checkColumnTested_eq hcolumnOf hrowOf (List.mem_range.mp hj)]

theorem validate_fits (p : PartialMatching) (m : Signature n) : Fits (p.validate m) fun _ => True := by
  unfold validate
  refine .bind (P := fun _ => True) (.forM fun size _ => ?_) fun _ _ => ?_
  · split
    · exact .ok trivial
    · exact .refuse
  refine .bind (.forM fun i _ => ?_) fun _ _ => .forM fun j _ => ?_
  · unfold checkRow
    split
    · refine .bind (P := fun _ => True) (.checkIndex trivial) fun _ _ => ?_
      dsimp only
      rw [refuse_bind]
      split
      · exact .refuse
      · split
        · exact .refuse
        · exact .pure trivial
    · exact .ok trivial
  · unfold checkColumn
    split
    · refine .bind (P := fun _ => True) (.checkIndex trivial) fun _ _ => ?_
      split
      · exact .refuse
      · exact .pure trivial
    · exact .ok trivial

theorem readIndex_eq {k : Option Nat} (h : ∀ i, k = some i → i < n) : readIndex n k = .ok (below n k) := by
  cases k with
  | none => rfl
  | some i => simp [readIndex, below, h i rfl]

theorem Valid.startTested_eq (h : p.Valid m) :
    p.startTested n = .ok (p.start n, Vector.ofFn fun i => p.u.getD i 0) := by
  have hsizes := h.sizes
  simp only [List.forall_mem_cons] at hsizes
  obtain ⟨hu, hv, hcolumnOf, hrowOf, -⟩ := hsizes
  have hget : ∀ {xs : Array Int}, xs.size = n → ∀ i : Fin n, lookAt xs i = .ok (xs.getD i 0) := by
    intro xs hxs i
    have hi : i.val < xs.size := hxs ▸ i.isLt
    rw [lookAt_eq_ok hi, Array.getD_eq_getD_getElem?, Array.getElem?_eq_getElem hi, Option.getD_some]
  have hread : ∀ {xs : Array (Option Nat)}, xs.size = n → (∀ i < n, ∀ k, xs[i]? = some (some k) → k < n) →
      ∀ i : Fin n, (lookAt xs i >>= readIndex n) = .ok (below n (xs.getD i none)) := by
    intro xs hxs hbelow i
    have hi : i.val < xs.size := hxs ▸ i.isLt
    rw [lookAt_eq_ok hi, Array.getD_eq_getD_getElem?, Array.getElem?_eq_getElem hi, Option.getD_some]
    refine readIndex_eq fun k hk => hbelow i i.isLt k ?_
    rw [Array.getElem?_eq_getElem hi, hk]
  unfold startTested
  rw [ofFnM_eq_ok (hget hu), ofFnM_eq_ok (hget hv),
    ofFnM_eq_ok (hread hcolumnOf fun i hi k hk => (h.rows i hi k hk).1),
    ofFnM_eq_ok (hread hrowOf fun j hj k hk => (h.columns j hj k hk).1)]
  rfl

end PartialMatching

/-- `solveDelta`, with a test at every access to the record. -/
def Signature.solveDeltaTested (settings : Settings) (m : Signature n) (p : PartialMatching) : Outcome Matching := do
  p.validateTested m
  let (a, u) ← p.startTested n
  let a ← a.seed m u
  let a ← a.augmentAll m a.freeRows (.empty n)
  a.finish settings m

theorem Signature.solveDeltaTested_eq (settings : Settings) (m : Signature n) (p : PartialMatching) :
    m.solveDeltaTested settings p = m.solveDelta settings p := by
  unfold solveDeltaTested solveDelta
  rw [p.validateTested_eq m]
  refine bind_congr_ok fun _ hvalidate => ?_
  rw [(PartialMatching.validate_eq_ok_iff.mp hvalidate).startTested_eq]
  rfl

/-! ## Arbitrary potentials -/

section verified

variable {s : Matching} {σ : Equiv.Perm (Fin n)} {u v : Fin n → Int}

theorem DualAssignment.supports_of_finish {a : DualAssignment n} (hverify : settings.verify = true)
    (h : a.finish settings m = .ok s) (hs : s.Records m σ u v) : m.Supports u v := by
  unfold finish at h
  obtain ⟨columns, -, h⟩ := bind_eq_ok_iff.mp h
  obtain ⟨rows, -, h⟩ := bind_eq_ok_iff.mp h
  obtain ⟨t, -, h⟩ := bind_eq_ok_iff.mp h
  simp only [hverify, ite_true] at h
  obtain ⟨_, hcheck, h⟩ := bind_eq_ok_iff.mp h
  cases h
  intro i j x hx
  have hle := (checkPotentials_spec t.u a.v).answer hcheck i j x hx
  have hu : t.u = Array.ofFn u := hs.rowPotentials
  have hv : Array.ofFn a.v.get = Array.ofFn v := a.v.toArray_eq_ofFn.symm.trans hs.columnPotentials
  have hvj := congrArg (fun xs => xs[j.val]?) hv
  simp only [Array.getElem?_ofFn, j.isLt, dite_true, Option.some.injEq] at hvj
  rw [hu, hvj] at hle
  simpa using hle

theorem Signature.supports_of_verify (hverify : settings.verify = true) (h : m.solveDelta settings p = .ok s)
    (hs : s.Records m σ u v) : m.Supports u v := by
  unfold solveDelta at h
  obtain ⟨_, -, h⟩ := bind_eq_ok_iff.mp h
  obtain ⟨_, -, h⟩ := bind_eq_ok_iff.mp h
  obtain ⟨_, -, h⟩ := bind_eq_ok_iff.mp h
  exact DualAssignment.supports_of_finish hverify h hs

end verified

/-! ## The restart -/

/-- **A restart completes every partial matching that its potentials prove optimal.** -/
theorem Signature.solveDelta_completes (settings : Settings) (m : Signature n) (p : PartialMatching)
    (hvalidate : p.validate m = .ok ()) (hproves : p.Proves m) (hno : m.solveDelta settings p ≠ .error .overflow) :
    ((∃ s, m.solveDelta settings p = .ok s) ↔ ∃ σ, m.IsTransversal σ) ∧
      (∀ s, m.solveDelta settings p = .ok s →
        (∃ σ u v, s.Records m σ u v ∧ m.Supports u v ∧ m.IsOptimal σ) ∧
          ∀ settings', m.solve settings' ≠ .error .overflow →
            ∃ t, m.solve settings' = .ok t ∧ t.cost = s.cost) ∧
      ∀ e, m.solveDelta settings p = .error e → e = .refused m.singularity := by
  have hspec := (solveDelta_spec settings (PartialMatching.validate_eq_ok_iff.mp hvalidate)).mono
    (fun _ hs => hs) fun _ hr => hr.resolve_right fun h => h.2 hproves
  refine ⟨⟨?_, ?_⟩, ?_, ?_⟩
  · rintro ⟨s, hs⟩
    obtain ⟨σ, u, v, hrecords, -⟩ := hspec.answer hs
    exact ⟨σ, hrecords.meets.isTransversal⟩
  · rintro ⟨σ, hσ⟩
    obtain ⟨s, hs, -⟩ := hspec.exists_answer hno fun _ hsing => hsing.2 σ hσ
    exact ⟨s, hs⟩
  · intro s hs
    obtain ⟨σ, u, v, hrecords, hsupports⟩ := hspec.answer hs
    have hoptimal := (hsupports hproves).isOptimal hrecords.meets
    refine ⟨⟨σ, u, v, hrecords, hsupports hproves, hoptimal⟩, fun settings' hno' => ?_⟩
    obtain ⟨t, ht, τ, u', v', hrecords', hsupports'⟩ :=
      (m.solve_spec settings').exists_answer hno' fun _ hsing => hsing.2 σ hoptimal.transversal
    have hcost := (hsupports'.isOptimal hrecords'.meets).costOf_eq hoptimal
    exact ⟨t, ht, by rw [hrecords'.cost, hrecords.cost, hcost]⟩
  · intro e he
    obtain ⟨r, rfl, hsing⟩ := hspec.exists_refusal hno he
    rw [hsing.1]

/-- One equation of motion is solved for the length. The potentials of the other lines mean nothing. -/
def PartialMatching.onePair : PartialMatching :=
  ⟨#[9, -2, 7], #[0, 5, -3], #[none, some 0, none], #[some 1, none, none]⟩

theorem PartialMatching.onePair_proves : onePair.Proves Signature.pendulum where
  tight := by decide +kernel
  feasible i j k l x hik hjl hx := by
    have hall : ∀ i j k l : Fin 3, onePair.columnOf[i.val]? = some (some k.val) →
        onePair.rowOf[j.val]? = some (some l.val) →
        (Signature.pendulum.get i j).all fun x => onePair.u.getD i 0 + onePair.v.getD j 0 ≤ x := by
      decide +kernel
    have := hall i j k l hik hjl
    rw [hx] at this
    simpa using this

theorem Signature.solveDelta_completes_onePair :
    PartialMatching.onePair.validate pendulum = .ok () ∧ PartialMatching.onePair.Proves pendulum ∧
      pendulum.solveDelta {} .onePair ≠ .error .overflow ∧
      ∃ s σ u v, pendulum.solveDelta {} .onePair = .ok s ∧ s.Records pendulum σ u v ∧ pendulum.Supports u v ∧
        pendulum.IsOptimal σ := by
  have hvalidate : PartialMatching.onePair.validate pendulum = .ok () := by decide +kernel
  have hno : pendulum.solveDelta {} .onePair ≠ .error .overflow := by decide +kernel
  obtain ⟨hiff, hok, -⟩ := solveDelta_completes {} pendulum .onePair hvalidate PartialMatching.onePair_proves hno
  obtain ⟨s, hs⟩ := hiff.mpr ⟨_, pendulum_isTransversal⟩
  obtain ⟨⟨σ, u, v, hsolved⟩, -⟩ := hok s hs
  exact ⟨hvalidate, PartialMatching.onePair_proves, hno, s, σ, u, v, hs, hsolved⟩

/-- **A restart is safe for any record.** It refuses what `validate` refuses; else it finds a transversal if there is
one, and only the test of the potentials can stand in the way of the answer. -/
theorem Signature.solveDelta_safe (settings : Settings) (m : Signature n) (p : PartialMatching) :
    m.solveDelta settings p = m.solveDeltaTested settings p ∧
      (∀ e, p.validate m = .error e → m.solveDelta settings p = .error e ∧ ∃ r, e = .refused r) ∧
      (p.validate m = .ok () → m.solveDelta settings p ≠ .error .overflow →
        (∀ s, m.solveDelta settings p = .ok s → ∃ σ u v, s.Records m σ u v ∧
          (settings.verify = true → m.Supports u v ∧ m.IsOptimal σ)) ∧
        (∀ e, m.solveDelta settings p = .error e → e = .refused m.singularity ∨
          settings.verify = true ∧ ∃ i j, e = .refused (.infeasible i j)) ∧
        (settings.verify = false → ((∃ s, m.solveDelta settings p = .ok s) ↔ ∃ σ, m.IsTransversal σ))) := by
  refine ⟨(m.solveDeltaTested_eq settings p).symm, fun e he => ⟨?_, (p.validate_fits m).exists_refusal he⟩,
    fun hvalidate hno => ?_⟩
  · unfold solveDelta
    rw [he]
    rfl
  have hspec := solveDelta_spec settings (PartialMatching.validate_eq_ok_iff.mp hvalidate)
  refine ⟨fun s hs => ?_, fun e he => ?_, fun hverify => ⟨?_, ?_⟩⟩
  · obtain ⟨σ, u, v, hrecords, -⟩ := hspec.answer hs
    refine ⟨σ, u, v, hrecords, fun hverify => ?_⟩
    have hsupports := supports_of_verify hverify hs hrecords
    exact ⟨hsupports, hsupports.isOptimal hrecords.meets⟩
  · obtain ⟨r, rfl, hsing | hinfeasible⟩ := hspec.exists_refusal hno he
    · exact .inl (by rw [hsing.1])
    · obtain ⟨i, j, rfl⟩ := hinfeasible.1.cause
      exact .inr ⟨hinfeasible.1.verify, i, j, rfl⟩
  · rintro ⟨s, hs⟩
    obtain ⟨σ, u, v, hrecords, -⟩ := hspec.answer hs
    exact ⟨σ, hrecords.meets.isTransversal⟩
  · rintro ⟨σ, hσ⟩
    have hnone : ∀ r, ¬ (m.Singular r ∨ m.Infeasible settings r ∧ ¬ p.Proves m) := by
      rintro r (hsing | hinfeasible)
      · exact hsing.2 σ hσ
      · simpa [hverify] using hinfeasible.1.verify
    obtain ⟨s, hs, -⟩ := hspec.exists_answer hno hnone
    exact ⟨s, hs⟩

/-- A pair that is in no matching of least cost, with potentials that do not even agree with its entry. -/
def PartialMatching.unfounded : PartialMatching := ⟨#[7, 0], #[0, -40], #[some 1, none], #[none, some 0]⟩

theorem Signature.solveDelta_safe_unfounded :
    PartialMatching.unfounded.validate fullSquare = .ok () ∧
      fullSquare.solveDelta {} .unfounded ≠ .error .overflow ∧
      ∃ s σ u v, fullSquare.solveDelta {} .unfounded = .ok s ∧ s.Records fullSquare σ u v := by
  obtain ⟨-, -, haccepted⟩ := solveDelta_safe {} fullSquare .unfounded
  have hvalidate : PartialMatching.unfounded.validate fullSquare = .ok () := by decide +kernel
  have hno : fullSquare.solveDelta {} .unfounded ≠ .error .overflow := by decide +kernel
  obtain ⟨hok, -, hiff⟩ := haccepted hvalidate hno
  obtain ⟨s, hs⟩ := (hiff rfl).mpr ⟨_, fullSquare_isTransversal (Equiv.refl _)⟩
  obtain ⟨σ, u, v, hrecords, -⟩ := hok s hs
  exact ⟨hvalidate, hno, s, σ, u, v, hs, hrecords⟩

/-- The answer is not of least cost, and the test of the potentials finds that. -/
example : (Signature.fullSquare.solveDelta {} .unfounded).map (·.cost) = .ok 0 ∧
    Signature.fullSquare.solveDelta { verify := true } .unfounded = refuse (.infeasible 0 0) := by
  decide +kernel

end SigmaMethod
