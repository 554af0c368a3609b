import SigmaMethod.Proofs.Matching.Solver
import SigmaMethod.Proofs.Signature.Writes

/-!
# Restarting from a partial matching

A record that passes `validate` reads as a consistent assignment. The columns without a row get potentials that no entry
falls short of against the potentials of the rows, so if the given pairs are optimal among themselves the assignment is
least in its rows, and the searches go on as in the solver.
-/

namespace SigmaMethod

variable {n : Nat} {m : Signature n} {p : PartialMatching}

/-! ## Records that pass -/

theorem checkSizes_eq_ok_iff {expected : Nat} {sizes : List Nat} {x : Unit} :
    checkSizes expected sizes = .ok x ↔ ∀ size ∈ sizes, size = expected := by
  unfold checkSizes
  rw [forM_eq_ok_iff]
  refine forall₂_congr fun size _ => ?_
  split <;> simp [*]

namespace PartialMatching

def RowAgrees (p : PartialMatching) (m : Signature n) (i : Nat) : Prop :=
  ∀ j, p.columnOf[i]? = some (some j) → j < n ∧ p.rowOf[j]? = some (some i) ∧ ∃ x, m.cost? i j = some x

def ColumnAgrees (p : PartialMatching) (n j : Nat) : Prop :=
  ∀ i, p.rowOf[j]? = some (some i) → i < n ∧ p.columnOf[i]? = some (some j)

theorem checkRow_eq_ok_iff {i : Nat} : p.checkRow m i = .ok () ↔ p.RowAgrees m i := by
  unfold checkRow RowAgrees
  split
  · rename_i j hj
    simp [hj, bind_eq_ok_iff, checkIndex_eq_ok_iff, Option.ne_none_iff_exists', Pure.pure, Except.pure]
  · rename_i hno
    exact iff_of_true rfl fun j hj => absurd hj (hno j)

theorem checkColumn_eq_ok_iff {j : Nat} : p.checkColumn n j = .ok () ↔ p.ColumnAgrees n j := by
  unfold checkColumn ColumnAgrees
  split
  · rename_i i hi
    simp [hi, bind_eq_ok_iff, checkIndex_eq_ok_iff, Pure.pure, Except.pure]
  · rename_i hno
    exact iff_of_true rfl fun i hi => absurd hi (hno i)

structure Valid (p : PartialMatching) (m : Signature n) : Prop where
  sizes : ∀ size ∈ [p.u.size, p.v.size, p.columnOf.size, p.rowOf.size], size = n
  rows : ∀ i < n, p.RowAgrees m i
  columns : ∀ j < n, p.ColumnAgrees n j

theorem validate_eq_ok_iff : p.validate m = .ok () ↔ p.Valid m := by
  unfold validate
  simp only [bind_eq_ok_iff, checkSizes_eq_ok_iff, forM_eq_ok_iff, List.mem_range, checkRow_eq_ok_iff,
    checkColumn_eq_ok_iff]
  exact ⟨fun ⟨_, h₁, _, h₂, h₃⟩ => ⟨h₁, h₂, h₃⟩, fun h => ⟨(), h.sizes, (), h.rows, h.columns⟩⟩

theorem Valid.agree (h : p.Valid m) (i j : Nat) : p.columnOf[i]? = some (some j) ↔ p.rowOf[j]? = some (some i) := by
  have hsizes := h.sizes
  simp only [List.forall_mem_cons] at hsizes
  obtain ⟨-, -, hcolumnOf, hrowOf, -⟩ := hsizes
  constructor
  · intro hij
    have hi := (Array.getElem?_eq_some_iff.mp hij).1
    exact (h.rows i (by omega) j hij).2.1
  · intro hji
    have hj := (Array.getElem?_eq_some_iff.mp hji).1
    exact (h.columns j (by omega) i hji).2

/-! ## The record as an assignment -/

theorem below_eq_some_iff {k : Option Nat} {j : Fin n} : below n k = some j ↔ k = some j.val := by
  unfold below
  cases k with
  | none => simp
  | some k =>
    by_cases hk : k < n
    · simp [hk, Fin.ext_iff]
    · simp only [Option.bind_some, hk, dite_false, reduceCtorEq, Option.some.injEq, false_iff]
      rintro rfl
      exact hk j.isLt

theorem start_columnOf {i j : Fin n} :
    (p.start n).columnOf.get i = some j ↔ p.columnOf[i.val]? = some (some j.val) := by
  have hget : (p.start n).columnOf.get i = below n (p.columnOf.getD i none) := Vector.getElem_ofFn i.isLt
  rw [hget, below_eq_some_iff, Array.getD_eq_getD_getElem?]
  cases p.columnOf[i.val]? <;> simp

theorem start_rowOf {i j : Fin n} : (p.start n).rowOf.get j = some i ↔ p.rowOf[j.val]? = some (some i.val) := by
  have hget : (p.start n).rowOf.get j = below n (p.rowOf.getD j none) := Vector.getElem_ofFn j.isLt
  rw [hget, below_eq_some_iff, Array.getD_eq_getD_getElem?]
  cases p.rowOf[j.val]? <;> simp

theorem start_v {j : Fin n} : (p.start n).v.get j = p.v.getD j 0 := Vector.getElem_ofFn j.isLt

theorem Valid.consistent (h : p.Valid m) : (p.start n).Consistent m where
  agree i j := by
    rw [start_columnOf, start_rowOf]
    exact ⟨fun hij => (h.rows i i.isLt j hij).2.1, fun hji => (h.columns j j.isLt i hji).2⟩
  entry i j hij := by
    rw [start_columnOf] at hij
    obtain ⟨-, -, x, hx⟩ := h.rows i i.isLt j hij
    exact ⟨x, by rw [← m.cost?_eq, hx]⟩

/-- The potentials are tight on the given pairs, and no entry between matched lines falls short of them. -/
structure Proves (p : PartialMatching) (m : Signature n) : Prop where
  tight : ∀ i j : Fin n, p.columnOf[i.val]? = some (some j.val) → m.get i j = some (p.u.getD i 0 + p.v.getD j 0)
  feasible : ∀ (i j k l : Fin n) (x : Int), p.columnOf[i.val]? = some (some k.val) →
    p.rowOf[j.val]? = some (some l.val) → m.get i j = some x → p.u.getD i 0 + p.v.getD j 0 ≤ x

end PartialMatching

/-! ## Columns without a row get a potential -/

theorem leastOf_spec (best : Option Int) (x : Int) :
    ∃ y, leastOf best x = some y ∧ y ≤ x ∧ ∀ b, best = some b → y ≤ b := by
  cases best with
  | none => exact ⟨x, rfl, Int.le_refl x, fun b hb => nomatch hb⟩
  | some b =>
    refine ⟨min b x, by simp [leastOf, min_comm], Int.min_le_right .., fun b' hb' => ?_⟩
    cases hb'
    exact Int.min_le_left ..

namespace DualAssignment

variable {a : DualAssignment n} {u : Vector Int n}

structure SeedsOf (a : DualAssignment n) (u : Vector Int n) (es : List (Fin n × Fin n × Int))
    (seeds : Vector (Option Int) n) : Prop where
  missing : ∀ j, a.rowOf.get j = none → seeds.get j = none → ∀ e ∈ es, e.2.1 ≠ j
  least : ∀ j y, a.rowOf.get j = none → seeds.get j = some y → ∀ e ∈ es, e.2.1 = j → y ≤ e.2.2 - u.get e.1

theorem SeedsOf.snoc {es : List (Fin n × Fin n × Int)} {seeds : Vector (Option Int) n} {i j : Fin n}
    (h : a.SeedsOf u es seeds)
    (hj : a.rowOf.get j = none) (x : Int) :
    a.SeedsOf u (es ++ [(i, j, x)]) (seeds.put j (leastOf (seeds.get j) (x - u.get i))) := by
  obtain ⟨y, hy, hyx, hyb⟩ := leastOf_spec (seeds.get j) (x - u.get i)
  have hget : ∀ k, (seeds.put j (leastOf (seeds.get j) (x - u.get i))).get k =
      if k = j then some y else seeds.get k := by
    intro k
    rw [Vector.get_put, hy]
  refine ⟨fun k hfree hnone e he => ?_, fun k z hfree hz e he hek => ?_⟩
  · rw [hget] at hnone
    split at hnone
    · cases hnone
    · rename_i hkj
      rcases List.mem_append.mp he with he | he
      · exact h.missing k hfree hnone e he
      · rw [List.mem_singleton.mp he]
        exact Ne.symm hkj
  · rw [hget] at hz
    split at hz
    · cases hz
      subst ‹k = j›
      rcases List.mem_append.mp he with he | he
      · cases hseed : seeds.get k with
        | none => exact absurd hek (h.missing k hj hseed e he)
        | some b => exact Int.le_trans (hyb b hseed) (h.least k b hj hseed e he hek)
      · rw [List.mem_singleton.mp he]
        exact hyx
    · rename_i hkj
      rcases List.mem_append.mp he with he | he
      · exact h.least k z hfree hz e he hek
      · rw [List.mem_singleton.mp he] at hek
        exact absurd hek.symm hkj

theorem SeedsOf.skip {es : List (Fin n × Fin n × Int)} {seeds : Vector (Option Int) n} (h : a.SeedsOf u es seeds)
    {e : Fin n × Fin n × Int} (he : a.rowOf.get e.2.1 ≠ none) : a.SeedsOf u (es ++ [e]) seeds := by
  refine ⟨fun k hfree hnone e' he' => ?_, fun k y hfree hy e' he' hek => ?_⟩
  · rcases List.mem_append.mp he' with he' | he'
    · exact h.missing k hfree hnone e' he'
    · rw [List.mem_singleton.mp he']
      exact fun hek => he (hek ▸ hfree)
  · rcases List.mem_append.mp he' with he' | he'
    · exact h.least k y hfree hy e' he' hek
    · rw [List.mem_singleton.mp he'] at hek
      exact absurd (hek ▸ hfree) he

theorem seeds_spec (m : Signature n) (a : DualAssignment n) (u : Vector Int n) :
    Yields (a.seeds m u) (a.SeedsOf u m.entries) := by
  unfold seeds
  refine Delivers.foldlM_done (I := a.SeedsOf u) ⟨fun j _ _ e he => (nomatch he), fun j y _ _ e he => (nomatch he)⟩ ?_
  rintro done ⟨i, j, x⟩ s - hs
  dsimp only
  split
  · rename_i hj
    exact .pure (hs.skip (Option.isSome_iff_ne_none.mp hj))
  · rename_i hj
    refine .bind (.fit rfl) fun y hy => .pure ?_
    subst hy
    exact hs.snoc (Option.not_isSome_iff_eq_none.mp hj) x

structure Seeded (m : Signature n) (u : Vector Int n) (a b : DualAssignment n) : Prop where
  columnOf : b.columnOf = a.columnOf
  rowOf : b.rowOf = a.rowOf
  taken : ∀ j, a.rowOf.get j ≠ none → b.v.get j = a.v.get j
  free : ∀ i j x, a.rowOf.get j = none → m.get i j = some x → b.v.get j ≤ x - u.get i

theorem Seeded.consistent {m : Signature n} {b : DualAssignment n} (hb : Seeded m u a b) (h : a.Consistent m) :
    b.Consistent m :=
  ⟨by rw [hb.columnOf, hb.rowOf]; exact h.agree, by rw [hb.columnOf]; exact h.entry⟩

structure SeededOver (m : Signature n) (u : Vector Int n) (a : DualAssignment n) (done : List (Fin n))
    (b : DualAssignment n) : Prop where
  columnOf : b.columnOf = a.columnOf
  rowOf : b.rowOf = a.rowOf
  taken : ∀ j, a.rowOf.get j ≠ none → b.v.get j = a.v.get j
  free : ∀ i, ∀ j ∈ done, ∀ x, a.rowOf.get j = none → m.get i j = some x → b.v.get j ≤ x - u.get i

section seededOver

variable {m : Signature n} {b : DualAssignment n} {done : List (Fin n)} {j : Fin n}

theorem SeededOver.skip (h : SeededOver m u a done b) (hj : a.rowOf.get j ≠ none) :
    SeededOver m u a (done ++ [j]) b where
  columnOf := h.columnOf
  rowOf := h.rowOf
  taken := h.taken
  free i k hk x hnone hx := by
    rcases List.mem_append.mp hk with hk | hk
    · exact h.free i k hk x hnone hx
    · rw [List.mem_singleton.mp hk] at hnone
      exact absurd hnone hj

theorem SeededOver.set (h : SeededOver m u a done b) (hj : a.rowOf.get j = none) {y : Int}
    (hy : ∀ i x, m.get i j = some x → y ≤ x - u.get i) : SeededOver m u a (done ++ [j]) (b.setPotential j y) where
  columnOf := h.columnOf
  rowOf := h.rowOf
  taken k hk := by
    have hkj : k ≠ j := fun e => hk (e ▸ hj)
    rw [setPotential_v, if_neg hkj]
    exact h.taken k hk
  free i k hk x hnone hx := by
    rw [setPotential_v]
    split
    · exact hy i x (‹k = j› ▸ hx)
    · rename_i hkj
      rcases List.mem_append.mp hk with hk | hk
      · exact h.free i k hk x hnone hx
      · exact absurd (List.mem_singleton.mp hk) hkj

end seededOver

theorem seed_spec (m : Signature n) (a : DualAssignment n) (u : Vector Int n) :
    Delivers (a.seed m u) (Seeded m u a) m.Singular := by
  unfold seed
  refine (seeds_spec m a u).widen.bind fun seeds hseeds => ?_
  refine (Delivers.foldlM_done (I := SeededOver m u a) ⟨rfl, rfl, fun _ _ => rfl, fun i j hj => (nomatch hj)⟩ ?_).imp
    fun b hb => ⟨hb.columnOf, hb.rowOf, hb.taken, fun i j => hb.free i j (List.mem_finRange j)⟩
  rintro done j b - hb
  rw [hb.rowOf]
  split
  · rename_i hj
    exact .pure (hb.skip (Option.isSome_iff_ne_none.mp hj))
  · rename_i hj
    have hj := Option.not_isSome_iff_eq_none.mp hj
    split
    · rename_i y hy
      refine .pure (hb.set hj fun i x hx => ?_)
      exact hseeds.least j y hj hy (i, j, x) (Signature.mem_entries_iff.mpr hx) rfl
    · rename_i hnone
      -- a column without entries is in no transversal
      refine .refuse ⟨rfl, fun σ hσ => ?_⟩
      obtain ⟨x, hx⟩ := hσ (σ.symm j)
      rw [Equiv.apply_symm_apply] at hx
      exact hseeds.missing j hj hnone _ (Signature.mem_entries_iff.mpr hx) rfl

end DualAssignment

/-! ## The restart -/

theorem PartialMatching.Proves.leastInRows {b : DualAssignment n} (h : p.Proves m) (hp : p.Valid m)
    (hb : DualAssignment.Seeded m (Vector.ofFn fun i => p.u.getD i 0) (p.start n) b) : b.LeastInRows m := by
  intro i j x k y hij hx hy
  rw [hb.columnOf] at hij
  have hj : (p.start n).rowOf.get j ≠ none := by
    rw [(hp.consistent.agree i j).mp hij]
    exact Option.some_ne_none i
  rw [start_columnOf] at hij
  have htight := h.tight i j hij
  rw [hx, Option.some.injEq] at htight
  have hvj := hb.taken j hj
  rw [start_v] at hvj
  -- the entries set the potential of a free column, and the record vouches for the others
  cases hk : (p.start n).rowOf.get k with
  | none =>
    have := hb.free i k y hk hy
    have hu : (Vector.ofFn fun i : Fin n => p.u.getD i 0).get i = p.u.getD i 0 := Vector.getElem_ofFn i.isLt
    rw [hu] at this
    omega
  | some l =>
    have hvk := hb.taken k (by rw [hk]; exact Option.some_ne_none l)
    rw [start_v] at hvk
    rw [start_rowOf] at hk
    have := h.feasible i k j l y hij hk hy
    omega

/-- A valid record is completed to a transversal, of least cost if the record proves itself optimal. -/
theorem Signature.solveDelta_spec (settings : Settings) (hp : p.Valid m) :
    Delivers (m.solveDelta settings p) (fun s => ∃ σ u v, s.Records m σ u v ∧ (p.Proves m → m.Supports u v))
      (fun r => m.Singular r ∨ m.Infeasible settings r ∧ ¬ p.Proves m) := by
  unfold solveDelta
  rw [PartialMatching.validate_eq_ok_iff.mpr hp]
  refine .bind (.ok (P := fun _ => True) trivial) fun _ _ => ?_
  refine ((DualAssignment.seed_spec m _ _).mono (fun _ h => h) fun _ h => .inl h).bind fun b hb => ?_
  have haugmented := DualAssignment.augmentAll_spec (hb.consistent hp.consistent) (DualAssignment.freeAre_freeRows b)
    (Scratch.empty_wf n)
  refine (haugmented.mono (fun _ h => h) fun _ h => .inl h).bind fun t ⟨ht, hfree, hleast⟩ => ?_
  refine (DualAssignment.finish_spec settings ht hfree).mono ?_ fun _ h => .inr ⟨h.1, fun hproves => ?_⟩
  · rintro s ⟨σ, u, hs, hsupports⟩
    exact ⟨σ, u, t.v.get, hs, fun hproves => hsupports (hleast (hproves.leastInRows hp hb))⟩
  · exact h.2 (hleast (hproves.leastInRows hp hb))

theorem Signature.solveDelta_complete_spec (settings : Settings) {σ : Equiv.Perm (Fin n)} (hp : p.Valid m)
    (hproves : p.Proves m) (hσ : ∀ i, p.columnOf[i.val]? = some (some (σ i).val)) :
    Yields (m.solveDelta settings p) fun s => ∃ u v, s.Records m σ u v ∧ m.Supports u v := by
  have hcol : ∀ i, (p.start n).columnOf.get i = some (σ i) := fun i => PartialMatching.start_columnOf.mpr (hσ i)
  have hrow : ∀ j, (p.start n).rowOf.get j = some (σ.symm j) := by
    intro j
    rw [← hp.consistent.agree, hcol, σ.apply_symm_apply]
  have htransversal : m.IsTransversal σ := fun i => hp.consistent.entry i _ (hcol i)
  unfold solveDelta
  rw [PartialMatching.validate_eq_ok_iff.mpr hp]
  refine .bind (.ok (P := fun _ => True) trivial) fun _ _ => ?_
  refine ((DualAssignment.seed_spec m _ _).mono (fun _ h => h) fun _ h => h.2 σ htransversal).bind fun b hb => ?_
  rw [← hb.columnOf] at hcol
  rw [← hb.rowOf] at hrow
  have hnone : b.freeRows = [] := by simp [DualAssignment.freeRows, hcol]
  have hleast := hproves.leastInRows hp hb
  rw [hnone, DualAssignment.augmentAll]
  refine .bind (.ok rfl) fun t ht => ?_
  subst ht
  refine (DualAssignment.finish_perm_spec settings hcol hrow htransversal).mono ?_ fun _ h => h.2 hleast
  rintro s ⟨u, hs, hsupports⟩
  exact ⟨u, _, hs, hsupports hleast⟩

end SigmaMethod
