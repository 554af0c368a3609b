import Mathlib.Algebra.BigOperators.Fin
import Mathlib.Data.Fintype.EquivFin
import SigmaMethod.Matching.Solver
import SigmaMethod.Proofs.Matching.Augment
import SigmaMethod.Proofs.Matching.Sweep

/-!
# The solver decides the assignment problem

Augmenting the free rows one after the other ends with all rows matched or proves that no transversal exists; reading
the matching off gives potentials that it meets, and that support the matrix if it is least in its rows. `solve_decides`
joins this with the reduction phases.
-/

namespace SigmaMethod

variable {n : Nat} {m : Signature n}

structure Matching.Records (s : Matching) (m : Signature n) (σ : Equiv.Perm (Fin n)) (u v : Fin n → Int) : Prop where
  columnOf : s.columnOf = Array.ofFn fun i => (σ i).val
  rowOf : s.rowOf = Array.ofFn fun j => (σ.symm j).val
  cost : s.cost = m.costOf σ
  rowPotentials : s.u = Array.ofFn u
  columnPotentials : s.v = Array.ofFn v
  meets : m.Meets u v σ

/-- The record `s` writes down the transversal `σ`; its potentials may be any. -/
structure Matching.Chooses (s : Matching) (m : Signature n) (σ : Equiv.Perm (Fin n)) : Prop where
  columnOf : s.columnOf = Array.ofFn fun i => (σ i).val
  rowOf : s.rowOf = Array.ofFn fun j => (σ.symm j).val
  cost : s.cost = m.costOf σ
  transversal : m.IsTransversal σ

theorem Matching.Records.chooses {s : Matching} {σ : Equiv.Perm (Fin n)} {u v : Fin n → Int} (h : s.Records m σ u v) :
    s.Chooses m σ :=
  ⟨h.columnOf, h.rowOf, h.cost, h.meets.isTransversal⟩

def Signature.Singular (m : Signature n) (r : Refusal) : Prop := r = m.singularity ∧ ∀ σ, ¬ m.IsTransversal σ

structure Signature.Infeasible (m : Signature n) (settings : Settings) (r : Refusal) : Prop where
  verify : settings.verify = true
  complete : ∃ σ, m.IsTransversal σ
  cause : ∃ i j, r = .infeasible i j

theorem Signature.not_isTransversal_of_hasEmptyLine (h : m.hasEmptyLine = true) (σ : Equiv.Perm (Fin n)) :
    ¬ m.IsTransversal σ := by
  intro hσ
  unfold hasEmptyLine at h
  rw [Bool.or_eq_true, List.any_eq_true, List.any_eq_true] at h
  rcases h with ⟨row, hrow, hempty⟩ | ⟨r, hr, hnone⟩
  · obtain ⟨i, hi, rfl⟩ := List.getElem_of_mem hrow
    rw [Vector.length_toList] at hi
    obtain ⟨x, hx⟩ := hσ ⟨i, hi⟩
    rw [← mem_row_iff] at hx
    have hnil : (m.rows.get ⟨i, hi⟩).entries = [] := List.isEmpty_iff.mp hempty
    rw [hnil] at hx
    cases hx
  · obtain ⟨j, hj, rfl⟩ := List.getElem_of_mem hr
    rw [Vector.length_toList] at hj
    obtain ⟨x, hx⟩ := hσ (σ.symm ⟨j, hj⟩)
    rw [Equiv.apply_symm_apply] at hx
    have hleast := m.cheapest_least ⟨j, hj⟩
    have hcol : m.cheapest.get ⟨j, hj⟩ = none := Option.isNone_iff_eq_none.mp hnone
    rw [hcol] at hleast
    have hget := hleast (σ.symm ⟨j, hj⟩)
    change m.get _ _ = none at hget
    rw [hget] at hx
    cases hx

theorem Signature.cheapest_ne_none (h : m.hasEmptyLine = false) (j : Fin n) : m.cheapest.get j ≠ none := by
  intro hnone
  unfold hasEmptyLine at h
  rw [Bool.or_eq_false_iff, List.any_eq_false, List.any_eq_false] at h
  refine h.2 (m.cheapest.get j) ?_ (Option.isNone_iff_eq_none.mpr hnone)
  exact Vector.mem_toList_iff.mpr (Vector.getElem_mem j.isLt)

namespace DualAssignment

variable {a : DualAssignment n}

/-! ## Augmenting all free rows -/

theorem Augmented.freeAre {b : DualAssignment n} {i : Fin n} {free : List (Fin n)} (h : Augmented m i a b)
    (hf : a.FreeAre (i :: free)) : b.FreeAre free := by
  refine ⟨(List.nodup_cons.mp hf.nodup).2, fun r => ?_⟩
  have hrows := h.rows r
  have hr := hf.mem_iff r
  rw [List.mem_cons] at hr
  rw [← Option.not_isSome_iff_eq_none] at hr ⊢
  rw [hrows, not_or, ← hr]
  constructor
  · exact fun hmem => ⟨.inr hmem, fun e => (List.nodup_cons.mp hf.nodup).1 (e ▸ hmem)⟩
  · exact fun ⟨hmem, hne⟩ => hmem.resolve_left hne

theorem augmentAll_spec : ∀ {free : List (Fin n)} {a : DualAssignment n} {s : Scratch n},
    a.Consistent m → a.FreeAre free → s.WF →
      Delivers (augmentAll m free a s)
        (fun b => b.Consistent m ∧ b.FreeAre [] ∧ (a.LeastInRows m → b.LeastInRows m)) m.Singular := by
  intro free
  induction free with
  | nil => exact fun hc hf _ => .ok ⟨hc, hf, fun h => h⟩
  | cons i free ih =>
    intro a s hc hf hs
    have hi : a.columnOf.get i = none := (hf.mem_iff i).mp List.mem_cons_self
    unfold augmentAll
    refine (augment_spec hc hi hs).widen.bind fun t ht => ?_
    cases hm : t.matched with
    | true =>
      have haug := ht.matched hm
      refine (ih haug.consistent (haug.freeAre hf) ht.scratch).imp fun b ⟨hconsistent, hfree, hleast⟩ => ?_
      exact ⟨hconsistent, hfree, fun h => hleast (haug.leastInRows h)⟩
    | false => exact .refuse ⟨rfl, (ht.exhausted hm).2⟩

/-! ## Reading the matching off -/

theorem Consistent.exists_perm (h : a.Consistent m) (hf : a.FreeAre []) :
    ∃ σ : Equiv.Perm (Fin n), (∀ i, a.columnOf.get i = some (σ i)) ∧ (∀ j, a.rowOf.get j = some (σ.symm j)) ∧
      m.IsTransversal σ := by
  have hall : ∀ i, ∃ j, a.columnOf.get i = some j := fun i =>
    Option.ne_none_iff_exists'.mp fun hnone => nomatch (hf.mem_iff i).mpr hnone
  choose f hcol using hall
  have hinj : Function.Injective f := fun i k hik => h.row_unique (hcol i) (hik ▸ hcol k)
  let σ := Equiv.ofBijective f (Finite.injective_iff_bijective.mp hinj)
  refine ⟨σ, hcol, fun j => ?_, fun i => h.entry i _ (hcol i)⟩
  rw [← h.agree, hcol]
  exact congrArg some (σ.apply_symm_apply j)

theorem partners_eq {xs : Vector (Option (Fin n)) n} {f : Fin n → Fin n} (h : ∀ i, xs.get i = some (f i)) :
    partners m xs = .ok ((List.finRange n).map f) := by
  have hxs : xs.toList = (List.finRange n).map fun i => some (f i) := by
    refine List.ext_getElem (by simp) fun i h₁ h₂ => ?_
    have hi : i < n := by simpa using h₁
    have := h ⟨i, hi⟩
    simpa [Vector.get] using this
  unfold partners
  rw [hxs, List.mapM_map]
  exact mapM_eq_ok fun i _ => rfl

theorem partners_toArray (σ : Equiv.Perm (Fin n)) :
    (((List.finRange n).map σ).map Fin.val).toArray = Array.ofFn fun i => (σ i).val := by
  rw [List.map_map, ← List.ofFn_eq_map, List.toArray_ofFn]
  rfl

theorem tally_spec {v : Vector Int n} {σ : Equiv.Perm (Fin n)} (hσ : m.IsTransversal σ) :
    Yields (((List.finRange n).zip ((List.finRange n).map σ)).foldlM (fun t (i, j) => Tally.add m v t i j) ⟨#[], 0⟩)
      fun t => t.u = Array.ofFn (fun i => (m.get i (σ i)).getD 0 - v.get (σ i)) ∧ t.cost = m.costOf σ := by
  let x : Fin n → Int := fun i => (m.get i (σ i)).getD 0
  have hzip : (List.finRange n).zip ((List.finRange n).map σ) = (List.finRange n).map fun i => (i, σ i) := by
    have := List.zip_map' (f := id) (g := σ) (l := List.finRange n)
    simpa using this
  rw [hzip, List.foldlM_map]
  refine (Delivers.foldlM_done (I := fun done (t : Tally) =>
    t.u = (done.map fun i => x i - v.get (σ i)).toArray ∧ t.cost = (done.map x).sum) ⟨rfl, rfl⟩ ?_).imp ?_
  · rintro done i t - ⟨hu, hcost⟩
    obtain ⟨y, hy⟩ := hσ i
    have hxi : x i = y := by simp only [x, hy, Option.getD_some]
    dsimp only
    unfold Tally.add
    rw [Signature.pairCost_eq hy]
    refine .bind (P := fun z => z = y) (.ok rfl) ?_
    rintro z rfl
    refine .bind (.fit rfl) fun p hp => .bind (.fit rfl) fun c hc => .pure ⟨?_, ?_⟩
    · rw [hu, List.map_append, ← hp, ← hxi]
      simp
    · rw [← hc, hcost, List.map_append, List.sum_append, ← hxi]
      simp
  · rintro t ⟨hu, hcost⟩
    refine ⟨?_, ?_⟩
    · rw [hu, ← List.ofFn_eq_map, List.toArray_ofFn]
    · rw [hcost, Signature.costOf, Fin.sum_univ_def]

theorem checkPotentials_spec (u : Array Int) (v : Vector Int n) :
    Delivers (checkPotentials m u v) (fun _ => ∀ i j x, m.get i j = some x → u.getD i 0 + v.get j ≤ x)
      (fun r => ∃ (i j : Fin n) (x : Int), m.get i j = some x ∧ x < u.getD i 0 + v.get j ∧ r = .infeasible i j) := by
  unfold checkPotentials
  refine Delivers.imp (Delivers.forM (G := fun e => u.getD e.1 0 + v.get e.2.1 ≤ e.2.2) ?_) fun _ hgood i j x hx =>
    hgood (i, j, x) (Signature.mem_entries_iff.mpr hx)
  rintro ⟨i, j, x⟩ he
  refine .bind (.fit rfl) fun y hy => ?_
  dsimp only
  split
  · exact .refuse ⟨i, j, x, Signature.mem_entries_iff.mp he, by omega, rfl⟩
  · exact .pure (by omega)

theorem finish_perm_spec (settings : Settings) {σ : Equiv.Perm (Fin n)} (hcol : ∀ i, a.columnOf.get i = some (σ i))
    (hrow : ∀ j, a.rowOf.get j = some (σ.symm j)) (hσ : m.IsTransversal σ) :
    Delivers (a.finish settings m)
      (fun s => ∃ u, s.Records m σ u a.v.get ∧ (a.LeastInRows m → m.Supports u a.v.get))
      (fun r => m.Infeasible settings r ∧ ¬ a.LeastInRows m) := by
  let u : Fin n → Int := fun i => (m.get i (σ i)).getD 0 - a.v.get (σ i)
  have hsupports : a.LeastInRows m → m.Supports u a.v.get := by
    intro hleast i j x hx
    obtain ⟨y, hy⟩ := hσ i
    have := hleast i (σ i) y j x (hcol i) hy hx
    simp only [u, hy, Option.getD_some]
    omega
  have hmeets : m.Meets u a.v.get σ := by
    intro i
    obtain ⟨y, hy⟩ := hσ i
    simp [u, hy]
  unfold finish
  rw [partners_eq hcol, partners_eq hrow]
  refine .bind (.ok rfl) fun _ hcols => .bind (.ok rfl) fun _ hrows => ?_
  subst hcols hrows
  refine (tally_spec hσ).widen.bind fun t ht => ?_
  have hrecords : Matching.Records (m := m) ⟨t.cost, (((List.finRange n).map σ).map Fin.val).toArray,
      (((List.finRange n).map σ.symm).map Fin.val).toArray, t.u, a.v.toArray⟩ σ u a.v.get := by
    exact ⟨partners_toArray σ, partners_toArray σ.symm, ht.2, ht.1, a.v.toArray_eq_ofFn, hmeets⟩
  dsimp only
  split
  · refine .bind (P := fun _ => True) ((checkPotentials_spec t.u a.v).mono (fun _ _ => trivial) ?_) fun _ _ =>
      .pure ⟨u, hrecords, hsupports⟩
    -- the row potentials make all pairs tight, so an entry they overcharge is less than its row's pair
    rintro r ⟨i, j, x, hx, hlt, rfl⟩
    refine ⟨⟨‹_›, ⟨σ, hσ⟩, i, j, rfl⟩, fun hleast => ?_⟩
    have := hsupports hleast i j x hx
    rw [ht.1] at hlt
    simp [u] at hlt this
    omega
  · exact .pure ⟨u, hrecords, hsupports⟩

theorem finish_spec (settings : Settings) (hc : a.Consistent m) (hf : a.FreeAre []) :
    Delivers (a.finish settings m)
      (fun s => ∃ σ u, s.Records m σ u a.v.get ∧ (a.LeastInRows m → m.Supports u a.v.get))
      (fun r => m.Infeasible settings r ∧ ¬ a.LeastInRows m) := by
  obtain ⟨σ, hcol, hrow, hσ⟩ := hc.exists_perm hf
  exact (finish_perm_spec settings hcol hrow hσ).imp fun s hs => ⟨σ, hs⟩

end DualAssignment

/-! ## The solver -/

theorem Signature.solve_spec (settings : Settings) (m : Signature n) :
    Delivers (m.solve settings) (fun s => ∃ σ u v, s.Records m σ u v ∧ m.Supports u v) m.Singular := by
  unfold solve
  split
  · exact .refuse ⟨rfl, not_isTransversal_of_hasEmptyLine ‹_›⟩
  · rename_i hline
    refine (reduction_spec (cheapest_ne_none (Bool.eq_false_iff.mpr hline)) settings.sweeps).widen.bind ?_
    rintro ⟨a, free⟩ ha
    refine (DualAssignment.augmentAll_spec ha.consistent ha.free (Scratch.empty_wf n)).bind
      fun b ⟨hb, hfree, hleast⟩ => ?_
    refine (DualAssignment.finish_spec settings hb hfree).mono ?_ fun _ h => absurd (hleast ha.leastInRows) h.2
    rintro s ⟨σ, u, hs, hsupports⟩
    exact ⟨σ, u, b.v.get, hs, hsupports (hleast ha.leastInRows)⟩

/-- **The solver decides the assignment problem.** -/
theorem Signature.solve_decides (settings : Settings) (m : Signature n) (h : m.solve settings ≠ .error .overflow) :
    ((∃ s, m.solve settings = .ok s) ↔ ∃ σ, m.IsTransversal σ) ∧
      (∀ s, m.solve settings = .ok s → ∃ σ u v, s.Records m σ u v ∧ m.Supports u v ∧ m.IsOptimal σ) ∧
      ∀ e, m.solve settings = .error e → e = .refused m.singularity := by
  have hspec := m.solve_spec settings
  refine ⟨⟨?_, ?_⟩, ?_, ?_⟩
  · rintro ⟨s, hs⟩
    obtain ⟨σ, u, v, hrecords, -⟩ := hspec.answer hs
    exact ⟨σ, hrecords.meets.isTransversal⟩
  · rintro ⟨σ, hσ⟩
    rcases hspec.cases h with ⟨s, hs, -⟩ | ⟨r, -, hr⟩
    · exact ⟨s, hs⟩
    · exact absurd hσ (hr.2 σ)
  · intro s hs
    obtain ⟨σ, u, v, hrecords, hsupports⟩ := hspec.answer hs
    exact ⟨σ, u, v, hrecords, hsupports, hsupports.isOptimal hrecords.meets⟩
  · intro e he
    rcases hspec.cases h with ⟨s, hs, -⟩ | ⟨r, hs, hr⟩
    · rw [hs] at he
      cases he
    · rw [hs] at he
      cases he
      rw [hr.1]

theorem Signature.solve_decides_pendulum :
    pendulum.solve {} ≠ .error .overflow ∧
      ∃ s σ u v, pendulum.solve {} = .ok s ∧ s.Records pendulum σ u v ∧ pendulum.Supports u v ∧
        pendulum.IsOptimal σ := by
  have h : pendulum.solve {} ≠ .error .overflow := by decide
  obtain ⟨hiff, hok, -⟩ := solve_decides {} pendulum h
  obtain ⟨s, hs⟩ := hiff.mpr ⟨_, pendulum_isTransversal⟩
  obtain ⟨σ, u, v, hsolved⟩ := hok s hs
  exact ⟨h, s, σ, u, v, hs, hsolved⟩

end SigmaMethod
