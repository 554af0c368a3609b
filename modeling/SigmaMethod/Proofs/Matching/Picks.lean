import Mathlib.Algebra.BigOperators.Fin
import Mathlib.Data.List.Perm.Basic
import Mathlib.Data.List.ProdSigma
import Mathlib.Logic.Equiv.Fin.Basic
import SigmaMethod.Proofs.Matching.Transversal
import SigmaMethod.Proofs.Signature.Writes

/-!
# Transversals as lists

A row is the function of its costs, and picks give each row of a list a column and the cost there. The transversals of a
matrix are the picks for its rows whose columns are all columns in some order; the order of the rows does not matter for
there to be such picks.
-/

namespace SigmaMethod

abbrev CostRow := Nat → Option Int

def Picks (rows : List CostRow) (picks : List (Nat × Int)) : Prop :=
  List.Forall₂ (fun row pick => row pick.1 = some pick.2) rows picks

namespace Picks

variable {rows rows' : List CostRow} {picks picks' : List (Nat × Int)}

theorem length_eq (h : Picks rows picks) : rows.length = picks.length := List.Forall₂.length_eq h

theorem append (h : Picks rows picks) (h' : Picks rows' picks') : Picks (rows ++ rows') (picks ++ picks') :=
  List.rel_append h h'

theorem split (h : Picks (rows ++ rows') picks) :
    ∃ p p', picks = p ++ p' ∧ Picks rows p ∧ Picks rows' p' := by
  induction rows generalizing picks with
  | nil => exact ⟨[], picks, rfl, .nil, h⟩
  | cons row rows ih =>
    cases h with
    | cons hpick hrest =>
      obtain ⟨p, p', rfl, hp, hp'⟩ := ih hrest
      exact ⟨_ :: p, p', rfl, .cons hpick hp, hp'⟩

theorem exists_row (h : Picks rows picks) {pick : Nat × Int} (hpick : pick ∈ picks) :
    ∃ row ∈ rows, row pick.1 = some pick.2 := by
  induction h with
  | nil => cases hpick
  | cons hrow _ ih =>
    rcases List.mem_cons.mp hpick with rfl | hpick
    · exact ⟨_, List.mem_cons_self, hrow⟩
    · obtain ⟨row, hmem, hrow⟩ := ih hpick
      exact ⟨row, List.mem_cons_of_mem _ hmem, hrow⟩

theorem perm_rows (h : Picks rows picks) (hperm : rows'.Perm rows) :
    ∃ picks', Picks rows' picks' ∧ picks'.Perm picks := by
  obtain ⟨picks', hp, hpicks⟩ := List.perm_comp_forall₂ hperm h
  exact ⟨picks', hp, hpicks⟩

theorem replicate_iff {row : CostRow} {k : Nat} :
    Picks (List.replicate k row) picks ↔ picks.length = k ∧ ∀ pick ∈ picks, row pick.1 = some pick.2 := by
  induction k generalizing picks with
  | zero =>
    rw [List.replicate_zero, List.length_eq_zero_iff]
    constructor
    · intro h
      cases h
      exact ⟨rfl, fun pick hpick => (nomatch hpick)⟩
    · rintro ⟨rfl, -⟩
      exact .nil
  | succ k ih =>
    rw [List.replicate_succ]
    cases picks with
    | nil => simp [Picks]
    | cons pick picks =>
      rw [Picks, List.forall₂_cons, List.forall_mem_cons, List.length_cons, Nat.add_right_cancel_iff]
      rw [← Picks, ih]
      exact and_left_comm

end Picks

/-! ## Matrices -/

namespace Signature

variable {n : Nat} {m : Signature n} {σ : Equiv.Perm (Fin n)}

def costRows (m : Signature n) : List CostRow := (List.range n).map m.cost?

def picksOf (m : Signature n) (σ : Equiv.Perm (Fin n)) : List (Nat × Int) :=
  (List.finRange n).map fun i => ((σ i).val, (m.get i (σ i)).getD 0)

theorem costRows_eq (m : Signature n) : m.costRows = (List.finRange n).map fun i : Fin n => m.cost? i.val := by
  rw [costRows, ← List.map_coe_finRange_eq_range, List.map_map]
  rfl

theorem get_eq_of_costRows {m' : Signature n} (h : m'.costRows = m.costRows) (i j : Fin n) :
    m'.get i j = m.get i j := by
  have hi := congrArg (·[i.val]?) h
  simp only [costRows, List.getElem?_map, List.getElem?_range i.isLt, Option.map_some, Option.some.injEq] at hi
  rw [← cost?_eq, ← cost?_eq, hi]

def HasRows (m : Signature n) (rows : List CostRow) : Prop := ∀ r l, m.cost? r l = rows[r]?.bind fun row => row l

theorem HasRows.costRows_eq {rows : List CostRow} (h : m.HasRows rows) (hlength : rows.length = n) :
    m.costRows = rows := by
  refine List.ext_getElem (by simp [costRows, hlength]) fun r h₁ h₂ => funext fun l => ?_
  have hr : m.costRows[r] = m.cost? r := by simp [costRows]
  rw [hr, h r l, List.getElem?_eq_getElem h₂]
  rfl

def copyFrom (rows : List CostRow) (m : Signature n) (e : Fin n × Fin n) : Signature n :=
  match rows[e.1.val]?.bind fun row => row e.2.val with
  | some x => m.put e.1 e.2 x
  | none => m

/-- The matrix with the given rows, as far as they fit. -/
def ofRows (n : Nat) (rows : List CostRow) : Signature n :=
  (List.finRange n ×ˢ List.finRange n).foldl (copyFrom rows) (empty n)

theorem get_copyFrom (rows : List CostRow) (m : Signature n) (e : Fin n × Fin n) (i j : Fin n) :
    (copyFrom rows m e).get i j =
      if (i, j) = e then (rows[i.val]?.bind fun row => row j.val).or (m.get i j) else m.get i j := by
  unfold copyFrom
  by_cases he : (i, j) = e
  · subst he
    rw [if_pos rfl]
    dsimp only
    generalize rows[i.val]?.bind (fun row => row j.val) = x
    cases x with
    | none => simp
    | some x => simp [get_put]
  · have hput : ∀ x, (m.put e.1 e.2 x).get i j = m.get i j := fun x => by
      rw [get_put, if_neg fun h => he (Prod.ext h.1 h.2)]
    rw [if_neg he]
    split
    · exact hput _
    · rfl

theorem get_foldl_copyFrom (rows : List CostRow) (l : List (Fin n × Fin n)) (m : Signature n) (i j : Fin n) :
    (l.foldl (copyFrom rows) m).get i j =
      if (i, j) ∈ l then (rows[i.val]?.bind fun row => row j.val).or (m.get i j) else m.get i j := by
  induction l generalizing m with
  | nil => rfl
  | cons e l ih =>
    rw [List.foldl_cons, ih, get_copyFrom]
    by_cases he : (i, j) = e
    · have hmem : (i, j) ∈ e :: l := he ▸ List.mem_cons_self
      rw [if_pos he, if_pos hmem, ← Option.or_assoc, Option.or_self, ite_self]
    · rw [if_neg he]
      exact if_congr (by rw [List.mem_cons, or_iff_right he]) rfl rfl

theorem get_ofRows (rows : List CostRow) (i j : Fin n) :
    (ofRows n rows).get i j = rows[i.val]?.bind fun row => row j.val := by
  rw [ofRows, get_foldl_copyFrom, if_pos (by simp), get_empty, Option.or_none]

theorem costRows_ofRows {rows : List CostRow} (hlength : rows.length = n)
    (hcolumns : ∀ row ∈ rows, ∀ l x, row l = some x → l < n) : (ofRows n rows).costRows = rows := by
  refine HasRows.costRows_eq (fun r l => ?_) hlength
  unfold cost?
  by_cases hr : r < n
  · by_cases hl : l < n
    · rw [dif_pos hr, dif_pos hl, get_ofRows]
    · rw [dif_pos hr, dif_neg hl, List.getElem?_eq_getElem (by omega)]
      refine (Option.eq_none_iff_forall_ne_some.mpr fun x hx => hl ?_).symm
      exact hcolumns _ (List.getElem_mem _) l x hx
  · rw [dif_neg hr, List.getElem?_eq_none (by omega)]
    rfl

theorem IsTransversal.picks (hσ : m.IsTransversal σ) : Picks m.costRows (m.picksOf σ) := by
  rw [costRows_eq]
  unfold Picks picksOf
  rw [List.forall₂_map_left_iff, List.forall₂_map_right_iff, List.forall₂_same]
  intro i _
  obtain ⟨x, hx⟩ := hσ i
  rw [cost?_eq, hx, Option.getD_some]

theorem picksOf_fst : (m.picksOf σ).map Prod.fst = List.ofFn fun i => (σ i).val := by
  rw [List.ofFn_eq_map, picksOf, List.map_map]
  rfl

theorem picksOf_columns : ((m.picksOf σ).map Prod.fst).Perm (List.range n) := by
  have h : (m.picksOf σ).map Prod.fst = ((List.finRange n).map σ).map Fin.val := by
    rw [picksOf_fst, List.ofFn_eq_map, List.map_map]
    rfl
  rw [h, ← List.map_coe_finRange_eq_range]
  exact (Equiv.Perm.map_finRange_perm σ).map _

theorem picksOf_cost : ((m.picksOf σ).map Prod.snd).sum = m.costOf σ := by
  rw [costOf, Fin.sum_univ_def, picksOf, List.map_map]
  rfl

theorem exists_transversal {picks : List (Nat × Int)} (h : Picks m.costRows picks)
    (hcolumns : (picks.map Prod.fst).Perm (List.range n)) : ∃ σ, m.IsTransversal σ ∧ picks = m.picksOf σ := by
  have hlength : picks.length = n := by
    rw [← h.length_eq]
    simp [costRows]
  have hpick : ∀ (i : Nat) (hi : i < picks.length), m.cost? i picks[i].1 = some picks[i].2 := by
    intro i hi
    have := List.Forall₂.get h (by rwa [h.length_eq]) hi
    simpa [costRows] using this
  have hlt : ∀ i : Fin n, picks[i].1 < n := fun i =>
    List.mem_range.mp (hcolumns.subset (List.mem_map_of_mem (List.getElem_mem _)))
  let f : Fin n → Fin n := fun i => ⟨picks[i].1, hlt i⟩
  have hinj : Function.Injective f := by
    intro i k hik
    have hnodup := hcolumns.nodup_iff.mpr List.nodup_range
    have heq : (picks.map Prod.fst).get ⟨i, by simp [hlength]⟩ = (picks.map Prod.fst).get ⟨k, by simp [hlength]⟩ := by
      simpa [f, Fin.ext_iff] using hik
    exact Fin.ext ((List.Nodup.getElem_inj_iff hnodup).mp heq)
  have hget : ∀ i, m.get i (f i) = some picks[i].2 := fun i => (m.cost?_eq i (f i)).symm.trans (hpick i (by omega))
  refine ⟨Equiv.ofBijective f (Finite.injective_iff_bijective.mp hinj), fun i => ⟨_, hget i⟩, ?_⟩
  refine List.ext_getElem (by simp [picksOf, hlength]) fun i h₁ _ => ?_
  have hi := hget ⟨i, by omega⟩
  simp only [picksOf, List.getElem_map, List.getElem_finRange]
  refine Prod.ext rfl ?_
  change picks[i].2 = (m.get ⟨i, _⟩ (f ⟨i, _⟩)).getD 0
  rw [hi]
  rfl

end Signature

end SigmaMethod
