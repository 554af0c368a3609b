import SigmaMethod.Offsets.Analyse
import SigmaMethod.Proofs.Matching.Restart
import SigmaMethod.Proofs.Offsets.Least

/-!
# The canonical offsets

The least offsets of a matching of least cost are least among all natural offsets that cover the entries and whose
difference is that cost. Those do not mention the matching, so all optimal matchings give rise to the same offsets, and
`analyse_canonical` speaks of the entries alone.
-/

namespace SigmaMethod

variable {n : Nat} {m m' : Signature n} {σ : Equiv.Perm (Fin n)} {c d : Fin n → Int}

/-- The least natural offsets that cover the entries of a matrix and differ by `cost` in sum. -/
structure Signature.IsCanonical (m : Signature n) (cost : Int) (c d : Fin n → Int) : Prop where
  covers : m.Covers c d
  value : ∑ i, c i - ∑ j, d j = cost
  least : ∀ c' d', m.Covers c' d' → ∑ i, c' i - ∑ j, d' j = cost → (∀ i, c i ≤ c' i) ∧ ∀ j, d j ≤ d' j

namespace Signature

theorem IsCanonical.unique {cost : Int} {c' d' : Fin n → Int} (h : m.IsCanonical cost c d)
    (h' : m.IsCanonical cost c' d') :
    c = c' ∧ d = d' := by
  obtain ⟨hc, hd⟩ := h.least c' d' h'.covers h'.value
  obtain ⟨hc', hd'⟩ := h'.least c d h.covers h.value
  exact ⟨funext fun i => le_antisymm (hc i) (hc' i), funext fun j => le_antisymm (hd j) (hd' j)⟩

theorem Covers.congr (h : ∀ i j, m'.get i j = m.get i j) (hc : m.Covers c d) : m'.Covers c d :=
  ⟨hc.equations, hc.unknowns, fun i j x hx => hc.entries i j x (by rw [← h, hx])⟩

theorem IsCanonical.congr {cost : Int} (h : ∀ i j, m'.get i j = m.get i j) (hc : m.IsCanonical cost c d) :
    m'.IsCanonical cost c d :=
  ⟨hc.covers.congr h, hc.value, fun c' d' h' => hc.least c' d' (h'.congr fun i j => (h i j).symm)⟩

theorem Tight.value (h : m.Tight c d σ) : ∑ i, c i - ∑ j, d j = m.costOf σ := by
  rw [h.meets.costOf_eq, Finset.sum_neg_distrib]
  omega

theorem Covers.tight (h : m.Covers c d) (hσ : m.IsTransversal σ) (hv : ∑ i, c i - ∑ j, d j = m.costOf σ) :
    m.Tight c d σ := by
  refine (h.supports.meets hσ ?_).tight
  rw [Finset.sum_neg_distrib]
  omega

theorem Covers.isOptimal (h : m.Covers c d) (hσ : m.Tight c d σ) : m.IsOptimal σ := h.supports.isOptimal hσ.meets

end Signature

theorem Offsets.IsLeast.isCanonical {o : Offsets n} (h : o.IsLeast m σ) :
    m.IsCanonical (m.costOf σ) o.c.get o.d.get where
  covers := h.covers
  value := h.tight.value
  least c' d' hc hv := h.least c' d' hc (hc.tight h.tight.isTransversal hv)

/-! ## The record of an analysis -/

structure Analysis.Records (a : Analysis) (m : Signature n) (σ : Equiv.Perm (Fin n)) (c d : Fin n → Int) : Prop where
  columnOf : a.columnOf = Array.ofFn fun i => (σ i).val
  rowOf : a.rowOf = Array.ofFn fun j => (σ.symm j).val
  cost : a.cost = m.costOf σ
  equationOffsets : a.c = Array.ofFn c
  unknownOffsets : a.d = Array.ofFn d

namespace Analysis

variable {a : Analysis}

theorem Records.gap_spec (h : a.Records m σ c d) (i j : Fin n) : Yields (a.gap i j) fun y => y = c i - d j := by
  unfold gap
  rw [h.equationOffsets, h.unknownOffsets]
  refine Delivers.bind (P := (· = c i)) (.lookAt (by simp) (by simp)) ?_
  rintro _ rfl
  refine Delivers.bind (P := (· = d j)) (.lookAt (by simp) (by simp)) ?_
  rintro _ rfl
  exact .fit rfl

theorem Records.sizes (h : a.Records m σ c d) :
    checkSizes n [a.c.size, a.d.size, a.columnOf.size, a.rowOf.size] = .ok () :=
  checkSizes_eq_ok_iff.mpr (by simp [h.equationOffsets, h.unknownOffsets, h.columnOf, h.rowOf])

theorem mem_zipIdx_ofFn {f : Fin n → Nat} {i j : Nat} :
    (j, i) ∈ (Array.ofFn f).toList.zipIdx ↔ ∃ k : Fin n, k.val = i ∧ f k = j := by
  rw [List.mem_zipIdx_iff_getElem?, Array.getElem?_toList, Array.getElem?_eq_some_iff]
  simp only [Array.getElem_ofFn, Array.size_ofFn]
  exact ⟨fun ⟨hi, hj⟩ => ⟨⟨i, hi⟩, rfl, hj⟩, fun ⟨k, hk, hj⟩ => by subst hk; exact ⟨k.isLt, hj⟩⟩

theorem Records.eq_of_mem_zipIdx (h : a.Records m σ c d) {i j : Nat} (he : (j, i) ∈ a.columnOf.toList.zipIdx) :
    ∃ hi : i < n, j = σ ⟨i, hi⟩ := by
  rw [h.columnOf, mem_zipIdx_ofFn] at he
  obtain ⟨k, rfl, rfl⟩ := he
  exact ⟨k.isLt, rfl⟩

theorem Records.verify_spec (h : a.Records m σ c d) (hc : m.Covers c d) (hσ : m.Tight c d σ) :
    Yields (a.verify m) fun _ => True := by
  unfold verify
  rw [h.sizes]
  refine Delivers.bind (P := fun _ => True) (.ok trivial) fun _ _ => ?_
  refine Delivers.bind (P := fun _ => True) ((Delivers.forM (G := fun _ => True) ?_).imp fun _ _ => trivial)
    fun _ _ => ?_
  · rintro ⟨i, j, x⟩ he
    refine (h.gap_spec i j).bind fun y hy => ?_
    have := hc.entries i j x (Signature.mem_entries_iff.mp he)
    rw [if_neg (by omega)]
    exact .pure trivial
  refine (Delivers.forM (G := fun _ => True) ?_).imp fun _ _ => trivial
  rintro ⟨j, i⟩ he
  obtain ⟨hi, rfl⟩ := h.eq_of_mem_zipIdx he
  dsimp only
  rw [m.cost?_eq ⟨i, hi⟩, hσ ⟨i, hi⟩]
  refine (h.gap_spec ⟨i, hi⟩ (σ ⟨i, hi⟩)).bind fun y hy => ?_
  rw [if_neg (fun hne => hne hy)]
  exact .pure trivial

def Solves (a : Analysis) (m : Signature n) : Prop :=
  ∃ σ c d, a.Records m σ c d ∧ m.Tight c d σ ∧ m.IsCanonical a.cost c d

theorem Solves.agree {a' : Analysis} (h : a.Solves m) (h' : a'.Solves m') (hget : ∀ i j, m'.get i j = m.get i j) :
    a'.c = a.c ∧ a'.d = a.d ∧ a'.cost = a.cost := by
  obtain ⟨σ, c, d, hrecords, htight, hcanonical⟩ := h
  obtain ⟨σ', c', d', hrecords', htight', hcanonical'⟩ := h'
  have hcost : a'.cost = a.cost := by
    rw [hrecords'.cost, hrecords.cost, Signature.costOf_congr hget]
    refine Signature.IsOptimal.costOf_eq ?_ (hcanonical.covers.isOptimal htight)
    exact (hcanonical'.covers.isOptimal htight').congr fun i j => (hget i j).symm
  obtain ⟨rfl, rfl⟩ := hcanonical'.unique (hcost ▸ hcanonical.congr hget)
  exact ⟨hrecords'.equationOffsets.trans hrecords.equationOffsets.symm,
    hrecords'.unknownOffsets.trans hrecords.unknownOffsets.symm, hcost⟩

end Analysis

/-! ## The analysis -/

theorem Matching.Chooses.records {s : Matching} (hs : s.Chooses m σ) (o : Offsets n) :
    Analysis.Records (m := m)
      ⟨o.c.toArray, o.d.toArray, Array.ofFn fun i => (σ i).val, s.rowOf, s.cost, none⟩ σ o.c.get o.d.get :=
  ⟨rfl, hs.rowOf, hs.cost, o.c.toArray_eq_ofFn, o.d.toArray_eq_ofFn⟩

theorem Signature.analysisOf_isLeast (settings : Settings) {s : Matching} (hs : s.Chooses m σ) :
    Delivers (m.analysisOf settings s)
      (fun a => ∃ o : Offsets n, a.Records m σ o.c.get o.d.get ∧ o.IsLeast m σ ∧ a.layout = none)
      (fun _ => ¬ ∃ u v, m.Supports u v ∧ m.Meets u v σ) := by
  unfold analysisOf
  rw [hs.columnOf]
  refine (leastOffsets_spec hs.transversal).bind fun t ⟨hleast, _⟩ => ?_
  have hrecords := hs.records t.offsets
  dsimp only
  split
  · exact (hrecords.verify_spec hleast.covers hleast.tight).widen.bind fun _ _ => .pure ⟨_, hrecords, hleast, rfl⟩
  · exact .pure ⟨_, hrecords, hleast, rfl⟩

theorem Signature.analysisOf_spec (settings : Settings) {s : Matching} (hs : s.Chooses m σ) :
    Delivers (m.analysisOf settings s) (fun a => a.Solves m)
      (fun _ => ¬ ∃ u v, m.Supports u v ∧ m.Meets u v σ) := by
  refine (analysisOf_isLeast settings hs).imp fun a ⟨o, hrecords, hleast, _⟩ => ?_
  exact ⟨σ, _, _, hrecords, hleast.tight, hrecords.cost ▸ hleast.isCanonical⟩

theorem Signature.analyse_spec (settings : Settings) (m : Signature n) :
    Delivers (m.analyse settings) (fun a => a.Solves m) m.Singular := by
  unfold analyse
  refine (m.solve_spec settings).bind fun s ⟨σ, u, v, hs, hsupports⟩ => ?_
  refine (analysisOf_spec settings hs.chooses).mono (fun _ ha => ha) fun _ h => absurd ⟨u, v, hsupports, hs.meets⟩ h

theorem Signature.analyse_ne_refuse (settings : Settings) (hσ : m.IsTransversal σ) (r : Refusal) :
    m.analyse settings ≠ refuse r :=
  fun h => ((m.analyse_spec settings).refusal h).2 σ hσ

/-- **The analysis finds the canonical offsets.** -/
theorem Signature.analyse_canonical (settings : Settings) (m : Signature n)
    (h : m.analyse settings ≠ .error .overflow) :
    ((∃ a, m.analyse settings = .ok a) ↔ ∃ σ, m.IsTransversal σ) ∧
      (∀ e, m.analyse settings = .error e → e = .refused m.singularity) ∧
      (∀ a, m.analyse settings = .ok a → ∃ σ c d,
        a.Records m σ c d ∧ m.IsOptimal σ ∧ m.Tight c d σ ∧ m.IsCanonical a.cost c d) ∧
      ∀ a, m.analyse settings = .ok a → ∀ (m' : Signature n) settings' a', (∀ i j, m'.get i j = m.get i j) →
        m'.analyse settings' = .ok a' → a'.c = a.c ∧ a'.d = a.d ∧ a'.cost = a.cost := by
  have hspec := m.analyse_spec settings
  refine ⟨⟨?_, ?_⟩, ?_, ?_, ?_⟩
  · rintro ⟨a, ha⟩
    obtain ⟨σ, c, d, -, htight, -⟩ := hspec.answer ha
    exact ⟨σ, htight.isTransversal⟩
  · rintro ⟨σ, hσ⟩
    rcases hspec.cases h with ⟨a, ha, -⟩ | ⟨r, -, hr⟩
    · exact ⟨a, ha⟩
    · exact absurd hσ (hr.2 σ)
  · intro e he
    rcases hspec.cases h with ⟨a, ha, -⟩ | ⟨r, hr, hsing⟩
    · rw [ha] at he
      cases he
    · rw [hr] at he
      cases he
      rw [hsing.1]
  · intro a ha
    obtain ⟨σ, c, d, hrecords, htight, hcanonical⟩ := hspec.answer ha
    exact ⟨σ, c, d, hrecords, hcanonical.covers.isOptimal htight, htight, hcanonical⟩
  · intro a ha m' settings' a' hget ha'
    exact Analysis.Solves.agree (hspec.answer ha) ((m'.analyse_spec settings').answer ha') hget

theorem Signature.analyse_canonical_pendulum :
    pendulum.analyse {} ≠ .error .overflow ∧
      ∃ a, pendulum.analyse {} = .ok a ∧ ∃ σ c d,
        a.Records pendulum σ c d ∧ pendulum.IsOptimal σ ∧ pendulum.Tight c d σ ∧
        pendulum.IsCanonical a.cost c d := by
  have h : pendulum.analyse {} ≠ .error .overflow := by decide +kernel
  obtain ⟨hiff, -, hok, -⟩ := analyse_canonical {} pendulum h
  obtain ⟨a, ha⟩ := hiff.mpr ⟨_, pendulum_isTransversal⟩
  exact ⟨h, a, ha, hok a ha⟩

/-- The length is differentiated twice, and the tension occurs undifferentiated. -/
example : (Signature.pendulum.analyse {}).map (fun a => (a.c, a.d)) = .ok (#[2, 0, 0], #[2, 2, 0]) := by decide +kernel

end SigmaMethod
