import Mathlib.Algebra.BigOperators.Fin
import SigmaMethod.Offsets.Least
import SigmaMethod.Proofs.Matching.Transversal
import SigmaMethod.Proofs.Outcome

/-!
# The fixed point of the offsets

Every sweep stays below all offsets that cover the entries and are tight on the chosen ones, so what stands still is
least among them. If there are such offsets at all, some of least sum agree with the iterates on one more equation after
each sweep: lowering by one where they do not agree would keep them valid. So `n + 1` sweeps settle a matching of least
cost. None of this asks that the rows choose different columns.
-/

namespace SigmaMethod

variable {n : Nat} {m : Signature n} {σ : Equiv.Perm (Fin n)} {f : Fin n → Fin n} {c d : Fin n → Int}

namespace Signature

structure Covers (m : Signature n) (c d : Fin n → Int) : Prop where
  equations : ∀ i, 0 ≤ c i
  unknowns : ∀ j, 0 ≤ d j
  entries : ∀ i j x, m.get i j = some x → c i - d j ≤ x

/-- Every row chooses a column where it has an entry; two rows may choose the same. -/
def OnEntries (m : Signature n) (f : Fin n → Fin n) : Prop := ∀ i, ∃ x, m.get i (f i) = some x

def Tight (m : Signature n) (c d : Fin n → Int) (f : Fin n → Fin n) : Prop :=
  ∀ i, m.get i (f i) = some (c i - d (f i))

theorem Covers.supports (h : m.Covers c d) : m.Supports c fun j => -d j := by
  intro i j x hx
  have := h.entries i j x hx
  dsimp only
  omega

theorem Tight.meets (h : m.Tight c d σ) : m.Meets c (fun j => -d j) σ := by
  intro i
  rw [h i, Int.sub_eq_add_neg]

theorem Meets.tight (h : m.Meets c (fun j => -d j) σ) : m.Tight c d σ := by
  intro i
  rw [h i, Int.sub_eq_add_neg]

theorem Tight.isTransversal (h : m.Tight c d σ) : m.IsTransversal σ := fun i => ⟨_, h i⟩

/-- Potentials that a transversal meets, moved up on one side and negated on the other, are offsets. -/
theorem Supports.exists_covers {u v : Fin n → Int} (h : m.Supports u v) (hσ : m.Meets u v σ) :
    ∃ c d, m.Covers c d ∧ m.Tight c d σ := by
  let k : Int := ∑ i, |u i| + ∑ j, |v j|
  have hu : ∀ i, |u i| ≤ k := by
    intro i
    have h₁ := Finset.single_le_sum (f := fun i => |u i|) (fun i _ => abs_nonneg _) (Finset.mem_univ i)
    have h₂ : 0 ≤ ∑ j, |v j| := Finset.sum_nonneg fun j _ => abs_nonneg _
    simp only [k] at h₁ ⊢
    omega
  have hv : ∀ j, |v j| ≤ k := by
    intro j
    have h₁ := Finset.single_le_sum (f := fun j => |v j|) (fun j _ => abs_nonneg _) (Finset.mem_univ j)
    have h₂ : 0 ≤ ∑ i, |u i| := Finset.sum_nonneg fun i _ => abs_nonneg _
    simp only [k] at h₁ ⊢
    omega
  refine ⟨fun i => u i + k, fun j => k - v j, ⟨fun i => ?_, fun j => ?_, fun i j x hx => ?_⟩, fun i => ?_⟩
  · have := neg_abs_le (u i)
    have := hu i
    omega
  · have := le_abs_self (v j)
    have := hv j
    omega
  · have := h i j x hx
    omega
  · rw [hσ i, Option.some.injEq]
    dsimp only
    omega

end Signature

/-! ## One sweep -/

namespace Offsets

variable {o : Offsets n}

/-- `d` is what the offsets of the unknowns become when they are raised just enough to cover the entries `es`. -/
structure RaisedOver (o : Offsets n) (es : List (Fin n × Fin n × Int)) (d : Vector Int n) : Prop where
  above : ∀ j, o.d.get j ≤ d.get j
  covers : ∀ e ∈ es, o.c.get e.1 - e.2.2 ≤ d.get e.2.1
  least : ∀ b : Fin n → Int, (∀ j, o.d.get j ≤ b j) → (∀ e ∈ es, o.c.get e.1 - e.2.2 ≤ b e.2.1) → ∀ j, d.get j ≤ b j

theorem RaisedOver.snoc {es : List (Fin n × Fin n × Int)} {d : Vector Int n} (h : o.RaisedOver es d) (i j : Fin n)
    (x : Int) :
    o.RaisedOver (es ++ [(i, j, x)]) (d.put j (max (d.get j) (o.c.get i - x))) := by
  have hget : ∀ k, (d.put j (max (d.get j) (o.c.get i - x))).get k =
      if k = j then max (d.get j) (o.c.get i - x) else d.get k := fun k => Vector.get_put ..
  have hmono : ∀ k, d.get k ≤ (d.put j (max (d.get j) (o.c.get i - x))).get k := by
    intro k
    rw [hget]
    split
    · subst ‹k = j›
      exact Int.le_max_left ..
    · exact Int.le_refl _
  refine ⟨fun k => Int.le_trans (h.above k) (hmono k), fun e he => ?_, fun b hb hcov k => ?_⟩
  · rcases List.mem_append.mp he with he | he
    · exact Int.le_trans (h.covers e he) (hmono _)
    · rw [List.mem_singleton.mp he, hget, if_pos rfl]
      exact Int.le_max_right ..
  · have hd := h.least b hb (fun e he => hcov e (List.mem_append_left _ he)) k
    rw [hget]
    split
    · subst ‹k = j›
      exact Int.max_le.mpr ⟨hd, hcov (i, k, x) (by simp)⟩
    · exact hd

theorem RaisedOver.le_of_covers {r : Vector Int n} (h : o.RaisedOver m.entries r) (hcov : m.Covers c d)
    (hc : ∀ i, o.c.get i ≤ c i) (hd : ∀ j, o.d.get j ≤ d j) (j : Fin n) : r.get j ≤ d j := by
  refine h.least d hd (fun e he => ?_) j
  have := hcov.entries e.1 e.2.1 e.2.2 (Signature.mem_entries_iff.mp he)
  have := hc e.1
  omega

theorem raise_spec (m : Signature n) (o : Offsets n) :
    Yields (o.raise m) fun r => r.c = o.c ∧ o.RaisedOver m.entries r.d := by
  unfold raise
  refine Delivers.bind (P := o.RaisedOver m.entries) ?_ fun d hd => .pure ⟨rfl, hd⟩
  refine Delivers.foldlM_done (I := o.RaisedOver) ⟨fun _ => Int.le_refl _, fun e he => (nomatch he),
    fun b hb _ => hb⟩ ?_
  rintro done ⟨i, j, x⟩ d - hd
  refine .bind (.fit rfl) fun y hy => .pure ?_
  subst hy
  exact hd.snoc i j x

end Offsets

def Signature.pairsOf (m : Signature n) (f : Fin n → Fin n) : List (Pair n) :=
  (List.finRange n).map fun i => ⟨i, f i, (m.get i (f i)).getD 0⟩

theorem Offsets.follow_spec (m : Signature n) (f : Fin n → Fin n) (o : Offsets n) :
    Yields (o.follow (m.pairsOf f)) fun r =>
      r.d = o.d ∧ ∀ i, r.c.get i = o.d.get (f i) + (m.get i (f i)).getD 0 := by
  unfold follow Signature.pairsOf
  rw [List.foldlM_map]
  refine Delivers.bind (P := fun c => ∀ i ∈ List.finRange n, c.get i = o.d.get (f i) + (m.get i (f i)).getD 0) ?_ ?_
  · refine Delivers.foldlM_done (I := fun done (c : Vector Int n) =>
      ∀ i ∈ done, c.get i = o.d.get (f i) + (m.get i (f i)).getD 0) (fun i hi => nomatch hi) ?_
    intro done i c _ hc
    refine .bind (.fit rfl) fun y hy => .pure fun k hk => ?_
    rw [Vector.get_put]
    split
    · subst ‹k = i›
      exact hy.symm
    · rename_i hki
      rcases List.mem_append.mp hk with hk | hk
      · exact hc k hk
      · exact absurd (List.mem_singleton.mp hk) hki
  · exact fun c hc => .pure ⟨rfl, fun i => hc i (List.mem_finRange i)⟩

namespace Offsets

variable {o r : Offsets n}

structure Swept (m : Signature n) (f : Fin n → Fin n) (o r : Offsets n) : Prop where
  equations : ∀ i, o.c.get i ≤ r.c.get i
  unknowns : ∀ j, o.d.get j ≤ r.d.get j
  covers : ∀ i j x, m.get i j = some x → o.c.get i - x ≤ r.d.get j
  tight : m.Tight r.c.get r.d.get f
  below : ∀ c d, m.Covers c d → m.Tight c d f → (∀ i, o.c.get i ≤ c i) → (∀ j, o.d.get j ≤ d j) →
    (∀ i, r.c.get i ≤ c i) ∧ ∀ j, r.d.get j ≤ d j

theorem sweep_spec (hf : m.OnEntries f) (o : Offsets n) :
    Yields (o.raise m >>= follow (m.pairsOf f)) (Swept m f o) := by
  refine (raise_spec m o).bind fun raised ⟨hc, hraised⟩ => (follow_spec m f raised).imp fun r ⟨hd, hr⟩ => ?_
  have hcovers : ∀ i j x, m.get i j = some x → o.c.get i - x ≤ r.d.get j := fun i j x hx =>
    hd ▸ hraised.covers (i, j, x) (Signature.mem_entries_iff.mpr hx)
  have htight : ∀ i x, m.get i (f i) = some x → r.c.get i = r.d.get (f i) + x := by
    intro i x hx
    rw [hr, hx, hd, Option.getD_some]
  refine ⟨fun i => ?_, fun j => hd ▸ hraised.above j, hcovers, fun i => ?_, fun c d hcov hmeets hbc hbd => ?_⟩
  · obtain ⟨x, hx⟩ := hf i
    have := hcovers i (f i) x hx
    have := htight i x hx
    omega
  · obtain ⟨x, hx⟩ := hf i
    rw [hx, Option.some.injEq]
    have := htight i x hx
    omega
  · have hbound : ∀ j, r.d.get j ≤ d j := by
      intro j
      rw [hd]
      exact hraised.le_of_covers hcov hbc hbd j
    refine ⟨fun i => ?_, hbound⟩
    have := htight i _ (hmeets i)
    have := hbound (f i)
    omega

/-! ## Sweeps until the offsets stand still -/

structure Climbing (m : Signature n) (f : Fin n → Fin n) (o : Offsets n) : Prop where
  equations : ∀ i, 0 ≤ o.c.get i
  unknowns : ∀ j, 0 ≤ o.d.get j
  below : ∀ c d, m.Covers c d → m.Tight c d f → (∀ i, o.c.get i ≤ c i) ∧ ∀ j, o.d.get j ≤ d j

theorem zero_climbing : (zero n).Climbing m f := by
  have hc : ∀ i, (zero n).c.get i = 0 := fun i => by simp [zero, Vector.get]
  have hd : ∀ i, (zero n).d.get i = 0 := fun i => by simp [zero, Vector.get]
  refine ⟨fun i => (hc i).ge, fun j => (hd j).ge, fun c d h _ => ⟨fun i => ?_, fun j => ?_⟩⟩
  · rw [hc]
    exact h.equations i
  · rw [hd]
    exact h.unknowns j

theorem Climbing.sweep (h : o.Climbing m f) (hr : Swept m f o r) : r.Climbing m f where
  equations i := Int.le_trans (h.equations i) (hr.equations i)
  unknowns j := Int.le_trans (h.unknowns j) (hr.unknowns j)
  below c d hc hd := hr.below c d hc hd (h.below c d hc hd).1 (h.below c d hc hd).2

structure IsLeast (m : Signature n) (f : Fin n → Fin n) (o : Offsets n) : Prop where
  covers : m.Covers o.c.get o.d.get
  tight : m.Tight o.c.get o.d.get f
  least : ∀ c d, m.Covers c d → m.Tight c d f → (∀ i, o.c.get i ≤ c i) ∧ ∀ j, o.d.get j ≤ d j

theorem Climbing.isLeast (h : o.Climbing m f) (hr : Swept m f o r) (hsame : r.c = o.c) : r.IsLeast m f where
  covers := ⟨(h.sweep hr).equations, (h.sweep hr).unknowns, fun i j x hx => by
    have := hr.covers i j x hx
    rw [hsame]
    omega⟩
  tight := hr.tight
  least := (h.sweep hr).below

/-! ## How many sweeps it takes -/

structure LeastSum (m : Signature n) (f : Fin n → Fin n) (c d : Fin n → Int) : Prop where
  covers : m.Covers c d
  tight : m.Tight c d f
  least : ∀ c' d', m.Covers c' d' → m.Tight c' d' f → ∑ i, c i ≤ ∑ i, c' i

theorem exists_leastSum (hc : m.Covers c d) (hd : m.Tight c d f) : ∃ c d, LeastSum m f c d := by
  classical
  have hnat : ∀ {c d : Fin n → Int}, m.Covers c d → ∃ k : Nat, ∑ i, c i = k := fun h =>
    Int.eq_ofNat_of_zero_le (Finset.sum_nonneg fun i _ => h.equations i)
  have hex : ∃ k : Nat, ∃ c d, m.Covers c d ∧ m.Tight c d f ∧ ∑ i, c i = k := by
    obtain ⟨k, hk⟩ := hnat hc
    exact ⟨k, c, d, hc, hd, hk⟩
  obtain ⟨c₀, d₀, hc₀, hd₀, hsum⟩ := Nat.find_spec hex
  refine ⟨c₀, d₀, hc₀, hd₀, fun c' d' hc' hd' => ?_⟩
  obtain ⟨k, hk⟩ := hnat hc'
  rw [hsum, hk]
  exact_mod_cast Nat.find_min' hex ⟨c', d', hc', hd', hk⟩

/-- Offsets of least sum cannot be lowered by one on some equations and their unknowns. Equations that share an unknown
are lowered together. -/
theorem LeastSum.mem_of_lowerable (hmin : LeastSum m f c d) {kept : Finset (Fin n)}
    (hshared : ∀ i k, f i = f k → i ∈ kept → k ∈ kept) (hc : ∀ i ∉ kept, 0 < c i) (hd : ∀ i ∉ kept, 0 < d (f i))
    (hslack : ∀ i ∈ kept, ∀ k ∉ kept, ∀ x, m.get i (f k) = some x → c i - d (f k) < x) (i : Fin n) : i ∈ kept := by
  let lowered : Finset (Fin n) := keptᶜ.image f
  have hlowered : ∀ {j}, j ∈ lowered ↔ ∃ k, k ∉ kept ∧ f k = j := by simp [lowered]
  have hchosen : ∀ i, f i ∈ lowered ↔ i ∉ kept := by
    intro i
    rw [hlowered]
    exact ⟨fun ⟨k, hk, hki⟩ hi => hk (hshared i k hki.symm hi), fun hi => ⟨i, hi, rfl⟩⟩
  let c' : Fin n → Int := fun i => if i ∈ kept then c i else c i - 1
  let d' : Fin n → Int := fun j => if j ∈ lowered then d j - 1 else d j
  have hcovers : m.Covers c' d' := by
    refine ⟨fun i => ?_, fun j => ?_, fun i j x hx => ?_⟩
    · simp only [c']
      split
      · exact hmin.covers.equations i
      · exact Int.le_sub_one_of_lt (hc i ‹_›)
    · simp only [d']
      split
      · obtain ⟨k, hk, rfl⟩ := hlowered.mp ‹_›
        exact Int.le_sub_one_of_lt (hd k hk)
      · exact hmin.covers.unknowns j
    · have := hmin.covers.entries i j x hx
      by_cases hi : i ∈ kept <;> by_cases hj : j ∈ lowered <;> simp only [c', d', hi, hj, ite_true, ite_false]
      · obtain ⟨k, hk, rfl⟩ := hlowered.mp hj
        have := hslack i hi k hk x hx
        omega
      · exact this
      · omega
      · omega
  have htight : m.Tight c' d' f := by
    intro i
    simp only [c', d', hchosen]
    rw [hmin.tight i, Option.some.injEq]
    by_cases hi : i ∈ kept <;> simp only [hi, not_true_eq_false, not_false_eq_true, ite_true, ite_false]
    omega
  by_contra hi
  have hlt : ∑ i, c' i < ∑ i, c i := by
    refine Finset.sum_lt_sum (fun k _ => ?_) ⟨i, Finset.mem_univ i, ?_⟩
    · simp only [c']
      split <;> omega
    · simp only [c', hi, ite_false]
      omega
  have := hmin.least c' d' hcovers htight
  omega

def agreement (c : Fin n → Int) (o : Offsets n) : Finset (Fin n) := {i | o.c.get i = c i}

theorem mem_agreement {i : Fin n} : i ∈ o.agreement c ↔ o.c.get i = c i := by simp [agreement]

theorem agreement_card_le : (o.agreement c).card ≤ n := by
  simpa using Finset.card_le_univ (o.agreement c)

/-- A sweep that changes anything reaches offsets of least sum on one more equation. -/
theorem LeastSum.agreement_ssubset (hmin : LeastSum m f c d) (h : o.Climbing m f) (hr : Swept m f o r)
    (hne : r.c ≠ o.c) :
    o.agreement c ⊂ r.agreement c := by
  have hbelow := h.below c d hmin.covers hmin.tight
  have hnext := (h.sweep hr).below c d hmin.covers hmin.tight
  have hsub : o.agreement c ⊆ r.agreement c := by
    intro i hi
    rw [mem_agreement] at hi ⊢
    have := hr.equations i
    have := hnext.1 i
    omega
  refine hsub.ssubset_of_ne fun heq => hne ?_
  have hlate : ∀ i ∉ o.agreement c, o.c.get i < c i ∧ r.c.get i < c i := by
    intro i hi
    have hi' := hi
    rw [heq, mem_agreement] at hi'
    rw [mem_agreement] at hi
    have := hbelow.1 i
    have := hnext.1 i
    omega
  have htight : ∀ i, c i - d (f i) = r.c.get i - r.d.get (f i) := by
    intro i
    have h₁ := hr.tight i
    rwa [hmin.tight i, Option.some.injEq] at h₁
  have hlate' : ∀ i ∉ o.agreement c, r.d.get (f i) < d (f i) := by
    intro i hi
    have := htight i
    have := (hlate i hi).2
    omega
  -- what is late could be lowered, so nothing is late
  have hall : ∀ i, i ∈ o.agreement c := by
    refine hmin.mem_of_lowerable (fun i k hik hi => ?_) (fun i hi => ?_) (fun i hi => ?_) fun i hi k hk x hx => ?_
    · rw [heq, mem_agreement] at hi ⊢
      have hi' := htight i
      have hk' := htight k
      rw [hik] at hi'
      omega
    · have := (hlate i hi).1
      have := h.equations i
      omega
    · have := hlate' i hi
      have := (h.sweep hr).unknowns (f i)
      omega
    · have := hr.covers i (f k) x hx
      have := hlate' k hk
      rw [mem_agreement] at hi
      omega
  refine Vector.ext fun i hi => ?_
  have h₁ := mem_agreement.mp (hall ⟨i, hi⟩)
  have h₂ := mem_agreement.mp (hsub (hall ⟨i, hi⟩))
  exact h₂.trans h₁.symm

end Offsets

open Offsets

/-- What stands still is least. A sweep that changes anything brings offsets of least sum nearer. -/
theorem settle_spec (hf : m.OnEntries f) : ∀ {fuel sweep : Nat} {o : Offsets n}, o.Climbing m f →
    Delivers (settle m (m.pairsOf f) fuel sweep o)
      (fun s => s.offsets.IsLeast m f ∧ ∀ c d, LeastSum m f c d → s.sweeps + (o.agreement c).card ≤ sweep + n)
      (fun _ => ∀ c d, LeastSum m f c d → (o.agreement c).card + fuel ≤ n) := by
  intro fuel
  induction fuel with
  | zero => exact fun _ => .refuse fun c d _ => agreement_card_le
  | succ fuel ih =>
    intro sweep o h
    unfold settle
    rw [← bind_assoc]
    refine (sweep_spec hf o).widen.bind fun r hr => ?_
    split
    · refine .pure ⟨h.isLeast hr ‹_›, fun c d _ => ?_⟩
      have := agreement_card_le (o := o) (c := c)
      dsimp only
      omega
    · rename_i hne
      have hcloser : ∀ c d, LeastSum m f c d → (o.agreement c).card < (r.agreement c).card := fun c d hmin =>
        Finset.card_lt_card (hmin.agreement_ssubset h hr hne)
      refine (ih (h.sweep hr)).mono (fun s hs => ⟨hs.1, fun c d hmin => ?_⟩) fun _ hs c d hmin => ?_
      · have := hs.2 c d hmin
        have := hcloser c d hmin
        omega
      · have := hs c d hmin
        have := hcloser c d hmin
        omega

/-! ## From the choice of columns -/

namespace Signature

theorem matchedPair_eq (hf : m.OnEntries f) (i : Fin n) :
    m.matchedPair (Array.ofFn fun i => (f i).val) i = .ok ⟨i, f i, (m.get i (f i)).getD 0⟩ := by
  obtain ⟨x, hx⟩ := hf i
  have hj : (Array.ofFn fun i => (f i).val).getD i n = (f i).val := by simp [Array.getD]
  unfold matchedPair
  simp [hj, hx]

theorem mapM_matchedPair (hf : m.OnEntries f) :
    (List.finRange n).mapM (m.matchedPair (Array.ofFn fun i => (f i).val)) = .ok (m.pairsOf f) :=
  mapM_eq_ok fun i _ => matchedPair_eq hf i

/-- The fixed point gives the least offsets that are tight on the choice, unless there are none. -/
theorem leastOffsets_chosen_spec (hf : m.OnEntries f) :
    Delivers (m.leastOffsets (Array.ofFn fun i => (f i).val))
      (fun s => s.offsets.IsLeast m f ∧ s.sweeps ≤ n + 1)
      (fun _ => ¬ ∃ c d, m.Covers c d ∧ m.Tight c d f) := by
  unfold leastOffsets
  rw [Array.size_ofFn, if_neg (fun h => h rfl), mapM_matchedPair hf]
  refine (settle_spec hf zero_climbing).mono (fun s hs => ⟨hs.1, ?_⟩) fun _ hs h => ?_
  · obtain ⟨c, d, hmin⟩ := exists_leastSum hs.1.covers hs.1.tight
    have := hs.2 c d hmin
    omega
  · obtain ⟨c, d, hc, hd⟩ := h
    obtain ⟨c, d, hmin⟩ := exists_leastSum hc hd
    have := hs c d hmin
    omega

theorem leastOffsets_spec (hσ : m.IsTransversal σ) :
    Delivers (m.leastOffsets (Array.ofFn fun i => (σ i).val))
      (fun s => s.offsets.IsLeast m σ ∧ ((∃ u v, m.Supports u v ∧ m.Meets u v σ) → s.sweeps ≤ n + 1))
      (fun _ => ¬ ∃ u v, m.Supports u v ∧ m.Meets u v σ) := by
  refine (leastOffsets_chosen_spec hσ).mono (fun s hs => ⟨hs.1, fun _ => hs.2⟩) fun _ hno h => hno ?_
  obtain ⟨u, v, hsupports, hmeets⟩ := h
  exact hsupports.exists_covers hmeets

end Signature

end SigmaMethod
