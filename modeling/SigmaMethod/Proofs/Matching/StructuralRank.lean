import Mathlib.Order.Bounds.Basic
import SigmaMethod.Proofs.Matching.AlternatingPath
import SigmaMethod.Proofs.Matching.Restart

/-!
# Structural rank

When a search has been tried from every row, the rows in closed sets bound every set of entries without shared lines:
its entries in these rows are in columns that have partners, and the other rows have partners themselves. So the report
counts right, and the solver, which searches for a perfect matching in its own way, gives up exactly if the rank is too
small.
-/

namespace SigmaMethod

variable {n : Nat} {m : Signature n} {c : Crossings n} {p : Pairing n}

structure Signature.Independent (m : Signature n) (s : Finset (Fin n × Fin n)) : Prop where
  entry : ∀ e ∈ s, ∃ x, m.get e.1 e.2 = some x
  rows : Set.InjOn Prod.fst (s : Set (Fin n × Fin n))
  columns : Set.InjOn Prod.snd (s : Set (Fin n × Fin n))

namespace Pairing

def matchedRows (p : Pairing n) : Finset (Fin n) := Finset.univ.filter fun i => (p.ofRow.get i).isSome

theorem mem_matchedRows {i : Fin n} : i ∈ p.matchedRows ↔ ∃ j, p.ofRow.get i = some j := by
  simp [matchedRows, Option.isSome_iff_exists]

theorem size_eq_length (p : Pairing n) :
    p.size = ((List.finRange n).filter fun i => (p.ofRow.get i).isSome).length := by
  rw [size, Vector.toList_eq_map_get, List.filter_map, List.length_map]
  rfl

theorem size_eq_card (p : Pairing n) : p.size = p.matchedRows.card := by
  simp [size_eq_length, matchedRows, Fin.univ_def, Finset.card]

theorem size_add_freeRows (p : Pairing n) : p.size + p.freeRows.length = n := by
  have hsplit := List.length_eq_length_filter_add (l := List.finRange n) fun i => (p.ofRow.get i).isSome
  simp only [Option.not_isSome, List.length_finRange] at hsplit
  rw [size_eq_length, freeRows]
  exact hsplit.symm

/-! ## Tried rows bound the rank -/

def trapped (c : Crossings n) (p : Pairing n) : Set (Fin n) := {i | ∃ D, i ∈ D ∧ p.Closed c D}

theorem trapped_closed (c : Crossings n) (p : Pairing n) : p.Closed c (trapped c p) := by
  intro x hx y hy
  obtain ⟨D, hxD, hD⟩ := hx
  obtain ⟨i, hi, hyi⟩ := hD x hxD y hy
  exact ⟨i, ⟨D, hi, hD⟩, hyi⟩

open Classical in
/-- A position in a trapped row stands for the partner of its column, and others stand for their own rows. -/
noncomputable def standIn (c : Crossings n) (p : Pairing n) (e : Fin n × Fin n) : Fin n :=
  if e.1 ∈ trapped c p then (p.ofColumn.get e.2).getD e.1 else e.1

theorem standIn_of_not_mem {e : Fin n × Fin n} (h : e.1 ∉ trapped c p) : standIn c p e = e.1 := if_neg h

theorem standIn_of_mem {e : Fin n × Fin n} (hp : p.On c) (he : e.2 ∈ c.ofRow.get e.1) (h : e.1 ∈ trapped c p) :
    standIn c p e ∈ trapped c p ∧ p.ofRow.get (standIn c p e) = some e.2 := by
  obtain ⟨i, hi, hei⟩ := trapped_closed c p e.1 h e.2 he
  have hstand : standIn c p e = i := by simp [standIn, h, hei]
  rw [hstand]
  exact ⟨hi, (hp.agree i e.2).mpr hei⟩

theorem card_le_of_tried (hp : p.On m.crossings) (hall : ∀ i, p.Tried m.crossings i) {s : Finset (Fin n × Fin n)}
    (hs : m.Independent s) : s.card ≤ p.matchedRows.card := by
  have hin : ∀ e ∈ s, e.1 ∈ trapped m.crossings p → standIn m.crossings p e ∈ trapped m.crossings p ∧
      p.ofRow.get (standIn m.crossings p e) = some e.2 :=
    fun e he => standIn_of_mem hp (Signature.mem_crossings_ofRow.mpr (hs.entry e he))
  apply Finset.card_le_card_of_injOn (standIn m.crossings p)
  · intro e he
    rw [Finset.mem_coe, mem_matchedRows]
    by_cases htrap : e.1 ∈ trapped m.crossings p
    · exact ⟨e.2, (hin e he htrap).2⟩
    · rw [standIn_of_not_mem htrap]
      exact Option.isSome_iff_exists.mp ((hall e.1).resolve_right htrap)
  · intro e he e' he' heq
    by_cases htrap : e.1 ∈ trapped m.crossings p <;> by_cases htrap' : e'.1 ∈ trapped m.crossings p
    · have h := (hin e he htrap).2
      rw [heq, (hin e' he' htrap').2, Option.some.injEq] at h
      exact hs.columns he he' h.symm
    · have h := (hin e he htrap).1
      rw [heq, standIn_of_not_mem htrap'] at h
      exact absurd h htrap'
    · have h := (hin e' he' htrap').1
      rw [← heq, standIn_of_not_mem htrap] at h
      exact absurd h htrap
    · rw [standIn_of_not_mem htrap, standIn_of_not_mem htrap'] at heq
      exact hs.rows he he' heq

theorem maximumPairing_spec (m : Signature n) : (maximumPairing m.crossings).On m.crossings ∧
    ∀ s, m.Independent s → s.card ≤ (maximumPairing m.crossings).size := by
  have hc := m.crossings_mutual
  obtain ⟨hon, -, htried⟩ := augmentEach_spec (greedyPairing_on hc) (List.finRange n)
  -- the columns are tried after the rows, which only adds partners
  obtain ⟨hon', hextends, -⟩ := augmentEach_spec (hon.swap hc) (List.finRange n)
  refine ⟨hon'.swap hc.swap, fun s hs => ?_⟩
  rw [size_eq_card]
  refine (card_le_of_tried hon (fun i => htried i (List.mem_finRange i)) hs).trans (Finset.card_le_card fun i hi => ?_)
  rw [mem_matchedRows, ← Option.isSome_iff_exists] at hi ⊢
  exact hextends.columns i hi

def positions (p : Pairing n) : Finset (Fin n × Fin n) := Finset.univ.filter fun e => p.ofRow.get e.1 = some e.2

theorem mem_positions {e : Fin n × Fin n} : e ∈ p.positions ↔ p.ofRow.get e.1 = some e.2 := by
  simp [positions]

theorem independent_positions (hp : p.On m.crossings) : m.Independent p.positions where
  entry e he := Signature.mem_crossings_ofRow.mp (hp.crossing e.1 e.2 (mem_positions.mp he))
  rows e he e' he' heq := by
    have h := mem_positions.mp he
    rw [heq, mem_positions.mp he', Option.some.injEq] at h
    exact Prod.ext heq h.symm
  columns e he e' he' heq := by
    have h := (hp.agree e.1 e.2).mp (mem_positions.mp he)
    rw [heq, (hp.agree e'.1 e'.2).mp (mem_positions.mp he'), Option.some.injEq] at h
    exact Prod.ext h.symm heq

theorem card_positions (hp : p.On m.crossings) : p.positions.card = p.size := by
  have hrows : p.positions.image Prod.fst = p.matchedRows := by
    ext i
    simp [mem_positions, mem_matchedRows]
  rw [size_eq_card, ← hrows, Finset.card_image_of_injOn (independent_positions hp).rows]

end Pairing

/-! ## The report -/

/-- The report gives the size of a largest independent set, and the rows that one such set leaves out. -/
structure RankReport.Exact (r : RankReport) (m : Signature n) : Prop where
  greatest : IsGreatest {k | ∃ s, m.Independent s ∧ s.card = k} r.rank
  increasing : r.unmatched.Pairwise (· < ·)
  inRange : ∀ i ∈ r.unmatched, i < n
  length : r.unmatched.length = n - r.rank
  rest : ∃ s, m.Independent s ∧ s.card = r.rank ∧ ∀ i : Fin n, (∃ j, (i, j) ∈ s) ↔ i.val ∉ r.unmatched

namespace Signature

theorem val_mem_unmatched {i : Fin n} :
    i.val ∈ m.rankReport.unmatched ↔ (maximumPairing m.crossings).ofRow.get i = none := by
  simp [rankReport, Pairing.freeRows, Fin.val_inj]

theorem rank_le (m : Signature n) : m.rankReport.rank ≤ n := by
  have := (maximumPairing m.crossings).size_add_freeRows
  simp only [rankReport]
  omega

theorem rankReport_exact (m : Signature n) : m.rankReport.Exact m := by
  obtain ⟨hon, hmax⟩ := Pairing.maximumPairing_spec m
  have hpositions := Pairing.independent_positions hon
  have hcard := Pairing.card_positions hon
  have hsize := (maximumPairing m.crossings).size_add_freeRows
  constructor
  · constructor
    · exact ⟨_, hpositions, hcard⟩
    · intro k hk
      obtain ⟨s, hs, rfl⟩ := hk
      exact hmax s hs
  · simp only [rankReport, Pairing.freeRows, List.pairwise_map]
    exact (List.pairwise_lt_finRange n).filter _
  · intro i hi
    obtain ⟨k, -, rfl⟩ := List.mem_map.mp hi
    exact k.isLt
  · simp only [rankReport, List.length_map]
    omega
  · refine ⟨_, hpositions, hcard, fun i => ?_⟩
    rw [val_mem_unmatched, ← Ne.eq_def, Option.ne_none_iff_exists']
    simp [Pairing.mem_positions]

theorem IsTransversal.independent {σ : Equiv.Perm (Fin n)} (h : m.IsTransversal σ) :
    m.Independent (Finset.univ.image fun i => (i, σ i)) where
  entry e he := by
    obtain ⟨i, -, rfl⟩ := Finset.mem_image.mp he
    exact h i
  rows e he e' he' heq := by
    obtain ⟨i, -, rfl⟩ := Finset.mem_image.mp he
    obtain ⟨k, -, rfl⟩ := Finset.mem_image.mp he'
    rw [show i = k from heq]
  columns e he e' he' heq := by
    obtain ⟨i, -, rfl⟩ := Finset.mem_image.mp he
    obtain ⟨k, -, rfl⟩ := Finset.mem_image.mp he'
    rw [σ.injective heq]

theorem rank_eq_iff : m.rankReport.rank = n ↔ ∃ σ, m.IsTransversal σ := by
  have hexact := m.rankReport_exact
  constructor
  · intro h
    have hnone : m.rankReport.unmatched = [] := by
      rw [← List.length_eq_zero_iff, hexact.length, h, Nat.sub_self]
    obtain ⟨s, hs, -, hrest⟩ := hexact.rest
    have hall : ∀ i, ∃ j, (i, j) ∈ s := fun i => (hrest i).mpr (by simp [hnone])
    choose f hf using hall
    have hinj : Function.Injective f := fun i k hik => congrArg Prod.fst (hs.columns (hf i) (hf k) hik)
    exact ⟨Equiv.ofBijective f (Finite.injective_iff_bijective.mp hinj), fun i => hs.entry _ (hf i)⟩
  · intro h
    obtain ⟨σ, hσ⟩ := h
    have hle : n ≤ m.rankReport.rank := by
      refine hexact.greatest.2 ⟨_, hσ.independent, ?_⟩
      rw [Finset.card_image_of_injective _ fun i k hik => congrArg Prod.fst hik, Finset.card_univ, Fintype.card_fin]
    exact Nat.le_antisymm m.rank_le hle

/-! ## The verdict of the solver -/

structure Reports (m : Signature n) (x : Outcome Matching) : Prop where
  singular_iff : m.rankReport.rank < n ↔ ∃ d k us, x = refuse (.singular d k us)
  carries : ∀ d k us, x = refuse (.singular d k us) →
    d = n ∧ k = m.rankReport.rank ∧ us = m.rankReport.unmatched ∧ us ≠ []

theorem reports_of_singular {r : Refusal} (h : m.Singular r) : m.Reports (refuse r) := by
  have hless : m.rankReport.rank < n := by
    refine Nat.lt_of_le_of_ne m.rank_le fun heq => ?_
    obtain ⟨σ, hσ⟩ := rank_eq_iff.mp heq
    exact h.2 σ hσ
  have hunmatched : m.rankReport.unmatched ≠ [] := by
    rw [← List.length_pos_iff, m.rankReport_exact.length]
    omega
  rw [h.1, singularity]
  constructor
  · exact iff_of_true hless ⟨_, _, _, rfl⟩
  · intro d k us heq
    cases heq
    exact ⟨rfl, rfl, rfl, hunmatched⟩

theorem reports_of_isTransversal {σ : Equiv.Perm (Fin n)} (h : m.IsTransversal σ) {x : Outcome Matching}
    (hx : ∀ d k us, x ≠ refuse (.singular d k us)) : m.Reports x where
  singular_iff := by
    have hrank := rank_eq_iff.mpr ⟨σ, h⟩
    refine iff_of_false (by omega) fun hex => ?_
    obtain ⟨d, k, us, heq⟩ := hex
    exact hx d k us heq
  carries d k us heq := absurd heq (hx d k us)

/-- **The rank report is exact, and both solvers refuse a matrix with it if and only if the rank is too small.** -/
theorem rank_decides (m : Signature n) :
    m.rankReport.Exact m ∧
    (∀ settings, m.solve settings ≠ .error .overflow → m.Reports (m.solve settings)) ∧
    ∀ settings (p : PartialMatching), p.validate m = .ok () → m.solveDelta settings p ≠ .error .overflow →
      m.Reports (m.solveDelta settings p) := by
  refine ⟨m.rankReport_exact, fun settings hno => ?_, fun settings p hp hno => ?_⟩
  · cases (m.solve_spec settings).cases hno with
    | inl hok =>
      obtain ⟨s, hs, σ, u, v, hrecords, -⟩ := hok
      rw [hs]
      exact reports_of_isTransversal hrecords.meets.isTransversal fun _ _ _ heq => nomatch heq
    | inr hrefused =>
      obtain ⟨r, hr, hsing⟩ := hrefused
      rw [hr]
      exact reports_of_singular hsing
  · rw [PartialMatching.validate_eq_ok_iff] at hp
    cases (solveDelta_spec settings hp).cases hno with
    | inl hok =>
      obtain ⟨s, hs, σ, u, v, hrecords, -⟩ := hok
      rw [hs]
      exact reports_of_isTransversal hrecords.meets.isTransversal fun _ _ _ heq => nomatch heq
    | inr hrefused =>
      obtain ⟨r, hr, hsing | ⟨hinfeasible, -⟩⟩ := hrefused
      · rw [hr]
        exact reports_of_singular hsing
      · obtain ⟨σ, hσ⟩ := hinfeasible.complete
        obtain ⟨i, j, rfl⟩ := hinfeasible.cause
        rw [hr]
        exact reports_of_isTransversal hσ fun _ _ _ heq => nomatch heq

/-- Two equations that name only the first unknown. -/
def sharedColumn : Signature 2 := ((ofIncidences 2 [⟨0, 0, 0⟩, ⟨1, 0, 1⟩]).toOption).getD (.empty 2)

theorem rank_decides_sharedColumn :
    sharedColumn.rankReport.Exact sharedColumn ∧
      (sharedColumn.solve {} ≠ .error .overflow ∧ sharedColumn.Reports (sharedColumn.solve {})) ∧
      (PartialMatching.empty 2).validate sharedColumn = .ok () ∧
      sharedColumn.solveDelta {} (.empty 2) ≠ .error .overflow ∧
      sharedColumn.Reports (sharedColumn.solveDelta {} (.empty 2)) := by
  obtain ⟨hexact, hsolve, hdelta⟩ := rank_decides sharedColumn
  have h₁ : sharedColumn.solve {} ≠ .error .overflow := by decide +kernel
  have h₂ : (PartialMatching.empty 2).validate sharedColumn = .ok () := by decide +kernel
  have h₃ : sharedColumn.solveDelta {} (.empty 2) ≠ .error .overflow := by decide +kernel
  exact ⟨hexact, ⟨h₁, hsolve {} h₁⟩, h₂, h₃, hdelta {} (.empty 2) h₂ h₃⟩

example : sharedColumn.rankReport = ⟨1, [1]⟩ := by decide +kernel

end Signature

end SigmaMethod
