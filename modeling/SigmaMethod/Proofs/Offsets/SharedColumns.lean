import Mathlib.Data.List.Sort
import SigmaMethod.Proofs.Matching.Picks
import SigmaMethod.Proofs.Matching.StructuralRank
import SigmaMethod.Proofs.Offsets.Sweeps

/-!
# Columns chosen twice

The fixed point is told a column for each row and asks only whether the row has an entry there. Two rows that choose the
same column get equal slack from it, so offsets that are tight on the choice exist unless the rows could exchange their
columns for less, and a column in common is no gain in an exchange. So the fixed point rejects missing entries and
choices that are too dear, and a choice that is no transversal may pass.
-/

namespace SigmaMethod

namespace Signature

variable {n : Nat} {m : Signature n} {f : Fin n → Fin n} {c d : Fin n → Int} {columnOf : Array Nat} {i j : Nat}

/-! ## Exchanges -/

def costAt (m : Signature n) (f : Fin n → Fin n) : Int := ∑ i, (m.get i (f i)).getD 0

def Settles (m : Signature n) (f : Fin n → Fin n) : Prop :=
  ∀ π : Equiv.Perm (Fin n), m.OnEntries (fun i => f (π i)) → m.costAt f ≤ m.costAt fun i => f (π i)

/-- The matrix whose column `k` is the column that row `k` has chosen. -/
def chosenColumns (m : Signature n) (f : Fin n → Fin n) : Signature n :=
  ofRows n ((List.finRange n).map fun i l => if h : l < n then m.get i (f ⟨l, h⟩) else none)

@[simp] theorem get_chosenColumns (m : Signature n) (f : Fin n → Fin n) (i k : Fin n) :
    (m.chosenColumns f).get i k = m.get i (f k) := by
  simp [chosenColumns, get_ofRows]

theorem chosenColumns_isOptimal_iff :
    (m.chosenColumns f).IsOptimal (Equiv.refl _) ↔ m.OnEntries f ∧ m.Settles f := by
  have htransversal : ∀ π, (m.chosenColumns f).IsTransversal π ↔ m.OnEntries fun i => f (π i) := fun π => by
    simp [IsTransversal, OnEntries]
  have hcost : ∀ π, (m.chosenColumns f).costOf π = m.costAt fun i => f (π i) := fun π => by simp [costOf, costAt]
  constructor
  · intro h
    refine ⟨(htransversal _).mp h.transversal, fun π hπ => ?_⟩
    have hle := h.least π ((htransversal π).mpr hπ)
    rwa [hcost, hcost] at hle
  · rintro ⟨hf, hle⟩
    refine ⟨(htransversal _).mpr hf, fun π hπ => ?_⟩
    rw [hcost, hcost]
    exact hle π ((htransversal π).mp hπ)

/-- Offsets that are tight on a choice prove the identity of the chosen columns optimal. -/
theorem Covers.chosenColumns_isOptimal (h : m.Covers c d) (hf : m.Tight c d f) :
    (m.chosenColumns f).IsOptimal (Equiv.refl _) := by
  have hsupports : (m.chosenColumns f).Supports c fun k => -d (f k) := by
    intro i k x hx
    rw [get_chosenColumns] at hx
    exact h.supports i (f k) x hx
  refine hsupports.isOptimal fun i => ?_
  rw [Equiv.refl_apply, get_chosenColumns, hf i, Int.sub_eq_add_neg]

theorem Covers.eq_of_shared (h : (m.chosenColumns f).Covers c d) (hf : (m.chosenColumns f).Tight c d (Equiv.refl _))
    {k k' : Fin n} (hk : f k = f k') : d k = d k' := by
  have hle : ∀ {k k'}, f k = f k' → d k ≤ d k' := by
    intro k k' hk
    have htight := hf k
    simp only [Equiv.refl_apply, get_chosenColumns] at htight
    have := h.entries k k' _ (by rw [get_chosenColumns, ← hk, htight])
    omega
  exact Int.le_antisymm (hle hk) (hle hk.symm)

/-- Offsets of the chosen columns are offsets of the whole matrix, with columns that nobody has chosen raised far
enough. -/
theorem Covers.exists_tight (h : (m.chosenColumns f).Covers c d)
    (hf : (m.chosenColumns f).Tight c d (Equiv.refl _)) : ∃ d', m.Covers c d' ∧ m.Tight c d' f := by
  have hcolumn : ∀ j, ∃ y, 0 ≤ y ∧ (∀ i x, m.get i j = some x → c i - x ≤ y) ∧ ∀ k, f k = j → y = d k := by
    intro j
    by_cases hj : ∃ k, f k = j
    · obtain ⟨k, rfl⟩ := hj
      refine ⟨d k, h.unknowns k, fun i x hx => ?_, fun k' hk' => h.eq_of_shared hf hk'.symm⟩
      have := h.entries i k x (by rw [get_chosenColumns, hx])
      omega
    · refine ⟨∑ i, |c i - (m.get i j).getD 0|, Finset.sum_nonneg fun i _ => abs_nonneg _, fun i x hx => ?_,
        fun k hk => absurd ⟨k, hk⟩ hj⟩
      have hle := Finset.single_le_sum (f := fun i => |c i - (m.get i j).getD 0|) (fun i _ => abs_nonneg _)
        (Finset.mem_univ i)
      simp only [hx, Option.getD_some] at hle
      exact (le_abs_self _).trans hle
  choose d' hnonneg hcovers hchosen using hcolumn
  refine ⟨d', ⟨h.equations, hnonneg, fun i j x hx => ?_⟩, fun i => ?_⟩
  · have := hcovers j i x hx
    omega
  · have htight := hf i
    rw [Equiv.refl_apply, get_chosenColumns] at htight
    rw [htight, hchosen (f i) i rfl]

/-- **Offsets are tight on a choice of entries exactly if no exchange costs less.** -/
theorem exists_tight_iff : (∃ c d, m.Covers c d ∧ m.Tight c d f) ↔ m.OnEntries f ∧ m.Settles f := by
  rw [← chosenColumns_isOptimal_iff]
  constructor
  · rintro ⟨c, d, hc, hd⟩
    exact hc.chosenColumns_isOptimal hd
  · intro h
    obtain ⟨u, v, hsupports, hmeets⟩ := isOptimal_iff.mp h
    obtain ⟨c, d, hc, hd⟩ := hsupports.exists_covers hmeets
    exact ⟨c, hc.exists_tight hd⟩

/-! ## Choices as they are handed in -/

def Misses (m : Signature n) (columnOf : Array Nat) (i j : Nat) : Prop := columnOf[i]? = some j ∧ m.cost? i j = none

theorem matchedPair_of_misses {i : Fin n} (h : m.Misses columnOf i j) :
    m.matchedPair columnOf i = refuse (.inconsistentMatching (.noIncidence i j)) := by
  obtain ⟨hj, hcost⟩ := h
  have hget : columnOf.getD i n = j := by simp [Array.getD_eq_getD_getElem?, hj]
  unfold matchedPair
  simp only [cost?, i.isLt, dif_pos] at hcost
  by_cases hlt : j < n
  · rw [dif_pos hlt] at hcost
    simp [hget, hlt, hcost]
  · simp [hget, hlt]

theorem entry_of_not_misses (hsize : columnOf.size = n) {i : Fin n} (h : ∀ j, ¬ m.Misses columnOf i j) :
    ∃ j : Fin n, columnOf[i.val]? = some j.val ∧ ∃ x, m.get i j = some x := by
  have hi : i.val < columnOf.size := hsize ▸ i.isLt
  have hsome := Array.getElem?_eq_getElem hi
  obtain ⟨x, hx⟩ := Option.ne_none_iff_exists'.mp fun hnone => h columnOf[i.val] ⟨hsome, hnone⟩
  obtain ⟨_, hj, hget⟩ := cost?_eq_some_iff.mp hx
  exact ⟨⟨_, hj⟩, hsome, x, hget⟩

theorem matchedPair_of_not_misses (hsize : columnOf.size = n) {i : Fin n} (h : ∀ j, ¬ m.Misses columnOf i j) :
    ∃ p, m.matchedPair columnOf i = .ok p := by
  obtain ⟨j, hj, x, hx⟩ := entry_of_not_misses hsize h
  refine ⟨⟨i, j, x⟩, ?_⟩
  unfold matchedPair
  simp [Array.getD_eq_getD_getElem?, hj, hx]

theorem exists_choice (hsize : columnOf.size = n) (h : ∀ i j, ¬ m.Misses columnOf i j) :
    ∃ f : Fin n → Fin n, columnOf = (Array.ofFn fun i => (f i).val) ∧ m.OnEntries f := by
  choose f hcolumn hf using fun i : Fin n => entry_of_not_misses hsize (h i)
  refine ⟨f, Array.ext (by simp [hsize]) fun i hi _ => ?_, hf⟩
  have hget := hcolumn ⟨i, hsize ▸ hi⟩
  rw [Array.getElem?_eq_getElem hi, Option.some.injEq] at hget
  rw [hget, Array.getElem_ofFn]

theorem leastOffsets_of_misses (hsize : columnOf.size = n) (h : ∃ i j, m.Misses columnOf i j) :
    ∃ i j, m.Misses columnOf i j ∧ (∀ k < i, ∀ l, ¬ m.Misses columnOf k l) ∧
      m.leastOffsets columnOf = refuse (.inconsistentMatching (.noIncidence i j)) := by
  classical
  have hbefore : ∀ k < Nat.find h, ∀ l, ¬ m.Misses columnOf k l := fun k hk l hl => Nat.find_min h hk ⟨l, hl⟩
  obtain ⟨j, hj⟩ := Nat.find_spec h
  refine ⟨Nat.find h, j, hj, hbefore, ?_⟩
  obtain ⟨hi, -⟩ := Array.getElem?_eq_some_iff.mp hj.1
  obtain ⟨done, rest, hsplit⟩ := List.append_of_mem (List.mem_finRange (⟨Nat.find h, hsize ▸ hi⟩ : Fin n))
  have hsorted := (List.sortedLT_finRange n).pairwise
  rw [hsplit, List.pairwise_append] at hsorted
  have hdone : ∀ k ∈ done, ∃ p, m.matchedPair columnOf k = .ok p := fun k hk =>
    matchedPair_of_not_misses hsize (hbefore k (hsorted.2.2 k hk _ List.mem_cons_self))
  unfold leastOffsets
  rw [if_neg (fun hne => hne hsize), hsplit, mapM_of_refuses (matchedPair_of_misses hj) hdone, refuse_bind]

/-! ## The answer -/

theorem leastOffsets_of_settles (hf : m.OnEntries f) (h : m.Settles f)
    (hno : m.leastOffsets (Array.ofFn fun i => (f i).val) ≠ .error .overflow) :
    ∃ s, m.leastOffsets (Array.ofFn fun i => (f i).val) = .ok s ∧ s.offsets.IsLeast m f := by
  obtain ⟨s, hs, hleast, -⟩ := (leastOffsets_chosen_spec hf).exists_answer hno fun _ hnone =>
    hnone (exists_tight_iff.mpr ⟨hf, h⟩)
  exact ⟨s, hs, hleast⟩

theorem leastOffsets_of_not_settles (hf : m.OnEntries f) (h : ¬ m.Settles f)
    (hno : m.leastOffsets (Array.ofFn fun i => (f i).val) ≠ .error .overflow) :
    m.leastOffsets (Array.ofFn fun i => (f i).val) = refuse (.inconsistentMatching (.notSettled (2 * n + 2))) := by
  cases (leastOffsets_stopped hf).cases hno with
  | inl hok =>
    obtain ⟨s, hs, -⟩ := hok
    have hleast := ((leastOffsets_chosen_spec hf).answer hs).1
    exact absurd (exists_tight_iff.mp ⟨_, _, hleast.covers, hleast.tight⟩).2 h
  | inr hfail =>
    obtain ⟨r, hr, rfl, -⟩ := hfail
    exact hr

theorem isOptimal_of_nodup (hsize : columnOf.size = n) (hnodup : columnOf.toList.Nodup) {s : Settled n}
    (hs : m.leastOffsets columnOf = .ok s) :
    ∃ σ : Equiv.Perm (Fin n), columnOf = (Array.ofFn fun i => (σ i).val) ∧ m.IsOptimal σ := by
  have hentries : ∀ i j, ¬ m.Misses columnOf i j := by
    intro i j h
    obtain ⟨_, _, -, -, hrefused⟩ := leastOffsets_of_misses hsize ⟨i, j, h⟩
    rw [hrefused] at hs
    cases hs
  obtain ⟨f, rfl, hf⟩ := exists_choice hsize hentries
  have hinjective : Function.Injective f := by
    rw [Array.toList_ofFn, List.nodup_ofFn] at hnodup
    exact fun i k hik => hnodup (congrArg Fin.val hik)
  have hleast := ((leastOffsets_chosen_spec hf).answer hs).1
  let σ := Equiv.ofBijective f (Finite.injective_iff_bijective.mp hinjective)
  have htight : m.Tight s.offsets.c.get s.offsets.d.get σ := hleast.tight
  exact ⟨σ, rfl, hleast.covers.supports.isOptimal htight.meets⟩

/-- **The fixed point rejects a choice that misses an entry, and one whose rows could exchange their columns for less.**
It answers all others, also those that choose a column twice. -/
theorem leastOffsets_rejects (m : Signature n) (columnOf : Array Nat) (hsize : columnOf.size = n) :
    ((∃ i j, m.Misses columnOf i j) →
      ∃ i j, m.Misses columnOf i j ∧ (∀ k < i, ∀ l, ¬ m.Misses columnOf k l) ∧
        m.leastOffsets columnOf = refuse (.inconsistentMatching (.noIncidence i j))) ∧
    ((∀ i j, ¬ m.Misses columnOf i j) → m.leastOffsets columnOf ≠ .error .overflow →
      ∃ f : Fin n → Fin n, columnOf = (Array.ofFn fun i => (f i).val) ∧ m.OnEntries f ∧
        (m.Settles f → ∃ s, m.leastOffsets columnOf = .ok s ∧ s.offsets.IsLeast m f) ∧
        (¬ m.Settles f → m.leastOffsets columnOf = refuse (.inconsistentMatching (.notSettled (2 * n + 2))))) ∧
    (columnOf.toList.Nodup → ∀ s, m.leastOffsets columnOf = .ok s →
      ∃ σ : Equiv.Perm (Fin n), columnOf = (Array.ofFn fun i => (σ i).val) ∧ m.IsOptimal σ) := by
  refine ⟨leastOffsets_of_misses hsize, fun hentries hno => ?_, fun hnodup s hs => isOptimal_of_nodup hsize hnodup hs⟩
  obtain ⟨f, rfl, hf⟩ := exists_choice hsize hentries
  exact ⟨f, rfl, hf, fun h => leastOffsets_of_settles hf h hno, fun h => leastOffsets_of_not_settles hf h hno⟩

/-- The length and an equation of motion are both solved for one coordinate. -/
theorem leastOffsets_rejects_pendulum :
    (∃ i j, pendulum.Misses #[0, 1, 2] i j ∧ (∀ k < i, ∀ l, ¬ pendulum.Misses #[0, 1, 2] k l) ∧
      pendulum.leastOffsets #[0, 1, 2] = refuse (.inconsistentMatching (.noIncidence i j))) ∧
    (∃ f : Fin 3 → Fin 3, #[0, 0, 1] = (Array.ofFn fun i => (f i).val) ∧ pendulum.Settles f ∧
      ∃ s, pendulum.leastOffsets #[0, 0, 1] = .ok s ∧ s.offsets.IsLeast pendulum f) ∧
    ∃ σ : Equiv.Perm (Fin 3), #[0, 2, 1] = (Array.ofFn fun i => (σ i).val) ∧ pendulum.IsOptimal σ := by
  refine ⟨(leastOffsets_rejects pendulum #[0, 1, 2] rfl).1 ⟨1, 1, rfl, by decide⟩, ?_, ?_⟩
  · have hok : (pendulum.leastOffsets #[0, 0, 1]).isOk = true := by decide +kernel
    obtain ⟨s, hs⟩ := isOk_iff.mp hok
    have hentry : ∀ i : Fin 3, pendulum.cost? i #[0, 0, 1][i] ≠ none := by decide
    have hentries : ∀ i j, ¬ pendulum.Misses #[0, 0, 1] i j := by
      rintro i j ⟨hj, hnone⟩
      obtain ⟨hi, rfl⟩ := Array.getElem?_eq_some_iff.mp hj
      exact hentry ⟨i, hi⟩ hnone
    obtain ⟨f, hf, -, hsettles, hsettlesNot⟩ :=
      (leastOffsets_rejects pendulum #[0, 0, 1] rfl).2.1 hentries (by rw [hs]; exact fun h => nomatch h)
    by_cases h : pendulum.Settles f
    · exact ⟨f, hf, h, hsettles h⟩
    · rw [hsettlesNot h] at hs
      cases hs
  · have hok : (pendulum.leastOffsets #[0, 2, 1]).isOk = true := by decide +kernel
    obtain ⟨s, hs⟩ := isOk_iff.mp hok
    exact (leastOffsets_rejects pendulum #[0, 2, 1] rfl).2.2 (by decide) s hs

/-- Both rows choose the only column that has entries. -/
theorem leastOffsets_sharedColumn :
    (∃ s, sharedColumn.leastOffsets #[0, 0] = .ok s ∧ s.offsets.c = #v[1, 0] ∧ s.offsets.d = #v[1, 0]) ∧
      ∀ σ : Equiv.Perm (Fin 2), #[0, 0] ≠ (Array.ofFn fun i => (σ i).val) ∧ ¬ sharedColumn.IsTransversal σ := by
  have hrun : (sharedColumn.leastOffsets #[0, 0]).map (fun s => (s.offsets.c, s.offsets.d)) =
      .ok (#v[1, 0], #v[1, 0]) := by
    decide +kernel
  constructor
  · obtain ⟨s, hs, hoffsets⟩ := map_eq_ok_iff.mp hrun
    exact ⟨s, hs, congrArg Prod.fst hoffsets, congrArg Prod.snd hoffsets⟩
  · have hcolumn : ∀ i : Fin 2, sharedColumn.get i 1 = none := by decide
    refine fun σ => ⟨fun h => ?_, fun h => ?_⟩
    · have hnodup : (Array.ofFn fun i => (σ i).val).toList.Nodup := by
        rw [Array.toList_ofFn, List.nodup_ofFn]
        exact Fin.val_injective.comp σ.injective
      rw [← h] at hnodup
      exact absurd hnodup (by decide)
    · obtain ⟨x, hx⟩ := h (σ.symm 1)
      rw [σ.apply_symm_apply, hcolumn] at hx
      cases hx

end Signature

end SigmaMethod
