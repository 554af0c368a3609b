import SigmaMethod.Proofs.Edit.Faithful
import SigmaMethod.Proofs.Offsets.Comparison

/-!
# Removing matched pairs

Deleting equations together with the unknowns they are matched with leaves a complete matching. What is left of the old
offsets proves it optimal, so nothing is matched anew, and the new offsets are nowhere larger than the old ones.
-/

namespace SigmaMethod

variable {n k dimension added : Nat} {m : Signature n} {a b : Analysis} {σ : Equiv.Perm (Fin n)} {c d : Fin n → Int}
  {e : Edit} {ed : Edited} {deleted deleted' : List Nat}

/-! ## Edits that remove pairs -/

/-- The edit deletes equations of a problem that is analysed as `a` and the unknowns they are matched with, and adds
nothing. -/
structure Edit.RemovesPairs (e : Edit) (a : Analysis) : Prop where
  equations : ∀ i ∈ e.deletedEquations, i < a.dimension
  unknowns : ∀ j, j ∈ e.deletedUnknowns ↔ ∃ i ∈ e.deletedEquations, a.columnOf[i]? = some j
  newRows : e.newRows = #[]
  newUnknowns : e.newUnknowns = 0

theorem Analysis.Records.columnOf_eq_some_iff (h : a.Records m σ c d) {i : Fin n} {j : Nat} :
    a.columnOf[i.val]? = some j ↔ (σ i).val = j := by
  simp [h.columnOf]

theorem Analysis.Records.rowOf_eq_some_iff (h : a.Records m σ c d) {j : Fin n} {i : Nat} :
    a.rowOf[j.val]? = some i ↔ (σ.symm j).val = i := by
  simp [h.rowOf]

namespace Edit.RemovesPairs

theorem exists_rows (h : e.RemovesPairs a) (hold : a.Records m σ c d) :
    ∃ rows : List (Fin n), rows.map Fin.val = e.deletedEquations := by
  have hlt : ∀ i ∈ e.deletedEquations, i < n := by
    simpa [Analysis.dimension, hold.equationOffsets] using h.equations
  exact ⟨e.deletedEquations.pmap Fin.mk hlt, by simp [List.map_pmap]⟩

theorem mem_iff (h : e.RemovesPairs a) (hold : a.Records m σ c d) (i : Fin n) :
    i.val ∈ e.deletedEquations ↔ (σ i).val ∈ e.deletedUnknowns := by
  obtain ⟨rows, hrows⟩ := h.exists_rows hold
  rw [h.unknowns, ← hrows]
  simp [hold.columnOf_eq_some_iff, Fin.val_inj]

theorem fits (h : e.RemovesPairs a) (hold : a.Records m σ c d) (he : e.Sorted) : e.Fits n := by
  obtain ⟨rows, hrows⟩ := h.exists_rows hold
  have hunknowns : ∀ j, j ∈ e.deletedUnknowns ↔ j ∈ rows.map fun i => (σ i).val := by
    intro j
    rw [h.unknowns, ← hrows]
    simp [hold.columnOf_eq_some_iff]
  have hnodup : (rows.map Fin.val).Nodup := hrows ▸ he.equations.imp Nat.ne_of_lt
  have hnodup' : (rows.map fun i => (σ i).val).Nodup :=
    hnodup.of_map.map fun i i' heq => σ.injective (Fin.ext heq)
  have hperm := (List.perm_ext_iff_of_nodup (he.unknowns.imp Nat.ne_of_lt) hnodup').mpr hunknowns
  refine ⟨fun i hi => ?_, fun j hj => ?_, fun r hr => ?_, ?_⟩
  · rw [← hrows] at hi
    obtain ⟨i, -, rfl⟩ := List.mem_map.mp hi
    exact i.isLt
  · obtain ⟨i, -, rfl⟩ := List.mem_map.mp ((hunknowns j).mp hj)
    exact (σ i).isLt
  · rw [h.newRows] at hr
    cases hr
  · rw [h.newRows, h.newUnknowns, hperm.length_eq, ← hrows, List.length_map, List.length_map]
    rfl

theorem unknowns_eq_nil (h : e.RemovesPairs a) (hnone : e.deletedEquations = []) : e.deletedUnknowns = [] := by
  refine List.eq_nil_iff_forall_not_mem.mpr fun j hj => ?_
  obtain ⟨i, hi, -⟩ := (h.unknowns j).mp hj
  rw [hnone] at hi
  cases hi

end Edit.RemovesPairs

/-! ## What is left -/

theorem exists_kept (place : Survivor n deleted ⊕ Fin added ≃ Fin dimension) (hadded : added = 0) :
    ∃ kept : Survivor n deleted ≃ Fin dimension, ∀ i, kept i = place (.inl i) := by
  subst hadded
  exact ⟨(Equiv.sumEmpty _ _).symm.trans place, fun _ => rfl⟩

structure Signature.IsLeft (t : Signature k) (τ : Equiv.Perm (Fin k)) (m : Signature n) (σ : Equiv.Perm (Fin n))
    (rows : Survivor n deleted ≃ Fin k) (columns : Survivor n deleted' ≃ Fin k) : Prop where
  get : ∀ i j, t.get (rows i) (columns j) = m.get i.1 j.1
  partner : ∀ i j, τ (rows i) = columns j ↔ σ i.1 = j.1

namespace Signature

variable {t : Signature k} {τ : Equiv.Perm (Fin k)} {rows : Survivor n deleted ≃ Fin k}
  {columns : Survivor n deleted' ≃ Fin k}

theorem exists_isLeft (hσ : ∀ i : Fin n, i.val ∈ deleted ↔ (σ i).val ∈ deleted')
    (hget : ∀ i j, t.get (rows i) (columns j) = m.get i.1 j.1) : ∃ τ, t.IsLeft τ m σ rows columns := by
  have hpartners : ∀ i : Fin n, i.val ∉ deleted ↔ (σ i).val ∉ deleted' := fun i => not_congr (hσ i)
  refine ⟨rows.symm.trans ((σ.subtypeEquiv hpartners).trans columns), hget, fun i j => ?_⟩
  simp [Subtype.ext_iff]

theorem IsLeft.isPart (h : t.IsLeft τ m σ rows columns) :
    t.IsPart τ m σ (fun i => (rows.symm i).1) fun j => (columns.symm j).1 where
  get i j := by rw [← h.get, rows.apply_symm_apply, columns.apply_symm_apply]
  partner i := by
    refine ((h.partner (rows.symm i) (columns.symm (τ i))).mp ?_).symm
    rw [rows.apply_symm_apply, columns.apply_symm_apply]

theorem IsLeft.costOf_eq (h : t.IsLeft τ m σ rows columns) {l : List (Fin n)} (hl : l.Nodup)
    (hdeleted : l.map Fin.val = deleted) :
    t.costOf τ = m.costOf σ - (l.map fun i => (m.get i (σ i)).getD 0).sum := by
  have hleft : t.costOf τ = ∑ i : Survivor n deleted, (m.get i.1 (σ i.1)).getD 0 := by
    rw [costOf, ← rows.sum_comp]
    refine Finset.sum_congr rfl fun i _ => ?_
    rw [h.isPart.get, h.isPart.partner, rows.symm_apply_apply]
  have hremoved : (l.map fun i => (m.get i (σ i)).getD 0).sum =
      ∑ i : { i : Fin n // ¬ i.val ∉ deleted }, (m.get i.1 (σ i.1)).getD 0 := by
    rw [← List.sum_toFinset _ hl]
    refine Finset.sum_subtype _ (fun i => ?_) _
    rw [List.mem_toFinset, ← hdeleted, not_not]
    simp [Fin.val_inj]
  have := Fintype.sum_subtype_add_sum_subtype (fun i : Fin n => i.val ∉ deleted) fun i => (m.get i (σ i)).getD 0
  rw [hleft, hremoved]
  exact eq_sub_of_add_eq this

end Signature

theorem Signature.IsLeft.analysis_eq {t : Signature k} {τ : Equiv.Perm (Fin k)} {o : Offsets k}
    {rows : Survivor n deleted ≃ Fin k} {columns : Survivor n deleted' ≃ Fin k} (h : t.IsLeft τ m σ rows columns)
    (hk : k = n) (hnone : deleted = []) (hnone' : deleted' = []) (hrows : ∀ i, (rows i).val = i.1.val)
    (hcolumns : ∀ j, (columns j).val = j.1.val) (ha : a.Records m σ c d) (hcanonical : m.IsCanonical a.cost c d)
    (hb : b.Records t τ o.c.get o.d.get) (hleast : o.IsLeast t τ) (hlayout : b.layout = none) :
    b = { a with layout := none } := by
  subst hk hnone hnone'
  have hrow : ∀ i : Fin k, rows ⟨i, List.not_mem_nil⟩ = i := fun i => Fin.ext (hrows _)
  have hcolumn : ∀ j : Fin k, columns ⟨j, List.not_mem_nil⟩ = j := fun j => Fin.ext (hcolumns _)
  have hget : ∀ i j, t.get i j = m.get i j := by
    intro i j
    have := h.get ⟨i, List.not_mem_nil⟩ ⟨j, List.not_mem_nil⟩
    rwa [hrow, hcolumn] at this
  obtain rfl : τ = σ := by
    refine Equiv.ext fun i => ?_
    have := (h.partner ⟨i, List.not_mem_nil⟩ ⟨σ i, List.not_mem_nil⟩).mpr rfl
    rwa [hrow, hcolumn] at this
  have hcost : t.costOf τ = a.cost := (costOf_congr hget τ).trans ha.cost.symm
  obtain ⟨rfl, rfl⟩ := hcanonical.unique ((hcost ▸ hleast.isCanonical).congr fun i j => (hget i j).symm)
  obtain ⟨_, _, _, _, _, _⟩ := b
  rw [Analysis.mk.injEq]
  exact ⟨hb.equationOffsets.trans ha.equationOffsets.symm, hb.unknownOffsets.trans ha.unknownOffsets.symm,
    hb.columnOf.trans ha.columnOf.symm, hb.rowOf.trans ha.rowOf.symm, hb.cost.trans hcost, hlayout⟩

/-! ## The analysis after a removal -/

namespace Edited

structure Inherits (m : Signature n) (a : Analysis) (e : Edit) (ed : Edited)
    (row : Survivor n e.deletedEquations ⊕ Fin e.newRows.size ≃ Fin ed.dimension)
    (column : Survivor n e.deletedUnknowns ⊕ Fin e.newUnknowns ≃ Fin ed.dimension) (b : Analysis) : Prop where
  sizes : ∀ size ∈ [b.c.size, b.d.size, b.columnOf.size, b.rowOf.size], size = ed.dimension
  columnOf : ∀ i, ∃ j, a.columnOf[i.1.val]? = some j.1.val ∧
    b.columnOf[(row (.inl i)).val]? = some (column (.inl j)).val
  rowOf : ∀ j, ∃ i, a.rowOf[j.1.val]? = some i.1.val ∧ b.rowOf[(column (.inl j)).val]? = some (row (.inl i)).val
  /-- The costs of the removed pairs are taken off. -/
  cost : ∃ xs, List.Forall₂ (fun i x => ∃ j, a.columnOf[i]? = some j ∧ m.cost? i j = some x) e.deletedEquations xs ∧
    b.cost = a.cost - xs.sum
  c : ∀ i, ∃ x y, b.c[(row (.inl i)).val]? = some x ∧ a.c[i.1.val]? = some y ∧ x ≤ y
  d : ∀ j, ∃ x y, b.d[(column (.inl j)).val]? = some x ∧ a.d[j.1.val]? = some y ∧ x ≤ y

theorem analyse_complete_spec (settings : Settings) {τ : Equiv.Perm (Fin ed.dimension)}
    (hvalid : ed.start.Valid ed.matrix) (hproves : ed.start.Proves ed.matrix)
    (hτ : ∀ k, ed.start.columnOf[k.val]? = some (some (τ k).val)) :
    Yields (ed.analyse settings) fun b => ∃ o : Offsets ed.dimension,
      b.Records ed.matrix τ o.c.get o.d.get ∧ o.IsLeast ed.matrix τ ∧ b.layout = none := by
  unfold analyse
  refine (Signature.solveDelta_complete_spec settings hvalid hproves hτ).bind fun s ⟨u, v, hs, hsupports⟩ => ?_
  exact (Signature.analysisOf_isLeast settings hs.chooses).mono (fun _ h => h) fun _ h =>
    h ⟨u, v, hsupports, hs.meets⟩

section removal

variable {τ : Equiv.Perm (Fin ed.dimension)} {o : Offsets ed.dimension}
  {row : Survivor n e.deletedEquations ⊕ Fin e.newRows.size ≃ Fin ed.dimension}
  {column : Survivor n e.deletedUnknowns ⊕ Fin e.newUnknowns ≃ Fin ed.dimension}
  {rows : Survivor n e.deletedEquations ≃ Fin ed.dimension} {columns : Survivor n e.deletedUnknowns ≃ Fin ed.dimension}

theorem Faithful.exists_isLeft (h : ed.Faithful m a e row column) (ha : a.Records m σ c d)
    (hremoves : e.RemovesPairs a) :
    ∃ (rows : Survivor n e.deletedEquations ≃ Fin ed.dimension)
      (columns : Survivor n e.deletedUnknowns ≃ Fin ed.dimension) (τ : _),
      ed.matrix.IsLeft τ m σ rows columns ∧ (∀ i, rows i = row (.inl i)) ∧ ∀ j, columns j = column (.inl j) := by
  obtain ⟨rows, hrows⟩ := exists_kept row (by rw [hremoves.newRows]; rfl)
  obtain ⟨columns, hcolumns⟩ := exists_kept column hremoves.newUnknowns
  have hget : ∀ i j, ed.matrix.get (rows i) (columns j) = m.get i.1 j.1 := by
    intro i j
    rw [hrows, hcolumns]
    exact h.entries (.inl i) (.inl j)
  obtain ⟨τ, hleft⟩ := Signature.exists_isLeft (hremoves.mem_iff ha) hget
  exact ⟨rows, columns, τ, hleft, hrows, hcolumns⟩

theorem Faithful.columnOf_isLeft (h : ed.Faithful m a e row column) (ha : a.Records m σ c d)
    (hleft : ed.matrix.IsLeft τ m σ rows columns) (hrows : ∀ i, rows i = row (.inl i))
    (hcolumns : ∀ j, columns j = column (.inl j)) (k : Fin ed.dimension) :
    ed.start.columnOf[k.val]? = some (some (τ k).val) := by
  refine (h.columnOf _ _).mpr ⟨rows.symm k, columns.symm (τ k), ?_, ?_, ?_⟩
  · rw [ha.columnOf_eq_some_iff, hleft.isPart.partner]
  · rw [← hrows, rows.apply_symm_apply]
  · rw [← hcolumns, columns.apply_symm_apply]

theorem Faithful.freeRows_eq_nil (h : ed.Faithful m a e row column)
    (hτ : ∀ k, ed.start.columnOf[k.val]? = some (some (τ k).val)) : ed.start.freeRows = [] := by
  have hdimension : ed.start.dimension = ed.dimension :=
    (PartialMatching.validate_eq_ok_iff.mp h.valid).sizes _ (by simp [PartialMatching.dimension])
  refine List.filter_eq_nil_iff.mpr fun k hk => ?_
  rw [hdimension, List.mem_range] at hk
  simp [hτ ⟨k, hk⟩]

theorem inherits (ha : a.Records m σ c d) (hcanonical : m.IsCanonical a.cost c d) (htight : m.Tight c d σ)
    (he : e.Sorted) (hremoves : e.RemovesPairs a) (hleft : ed.matrix.IsLeft τ m σ rows columns)
    (hrows : ∀ i, rows i = row (.inl i)) (hcolumns : ∀ j, columns j = column (.inl j))
    (hb : b.Records ed.matrix τ o.c.get o.d.get) (hleast : o.IsLeast ed.matrix τ) :
    Inherits m a e ed row column b := by
  obtain ⟨hc, hd⟩ := hleast.le_of_isPart hleft.isPart hcanonical.covers htight
  obtain ⟨l, hl⟩ := hremoves.exists_rows ha
  have hnodup : l.Nodup := .of_map Fin.val (hl ▸ he.equations.imp Nat.ne_of_lt)
  refine ⟨?_, fun i => ?_, fun j => ?_, ⟨l.map fun i => (m.get i (σ i)).getD 0, ?_, ?_⟩, fun i => ?_, fun j => ?_⟩
  · simp [hb.equationOffsets, hb.unknownOffsets, hb.columnOf, hb.rowOf]
  · have hpartner : (σ i.1).val ∉ e.deletedUnknowns := fun hmem => i.2 ((hremoves.mem_iff ha i.1).mpr hmem)
    refine ⟨⟨σ i.1, hpartner⟩, ha.columnOf_eq_some_iff.mpr rfl, ?_⟩
    rw [← hrows, ← hcolumns, hb.columnOf_eq_some_iff, (hleft.partner i ⟨σ i.1, hpartner⟩).mpr rfl]
  · have hpartner : (σ.symm j.1).val ∉ e.deletedEquations := by
      rw [hremoves.mem_iff ha, σ.apply_symm_apply]
      exact j.2
    refine ⟨⟨σ.symm j.1, hpartner⟩, ha.rowOf_eq_some_iff.mpr rfl, ?_⟩
    have := (hleft.partner ⟨σ.symm j.1, hpartner⟩ j).mpr (σ.apply_symm_apply j.1)
    rw [← hrows, ← hcolumns, hb.rowOf_eq_some_iff, ← this, τ.symm_apply_apply]
  · rw [← hl, List.forall₂_map_left_iff, List.forall₂_map_right_iff, List.forall₂_same]
    intro i _
    refine ⟨(σ i).val, ha.columnOf_eq_some_iff.mpr rfl, ?_⟩
    rw [m.cost?_eq, htight i, Option.getD_some]
  · rw [hb.cost, ha.cost, hleft.costOf_eq hnodup hl]
  · refine ⟨o.c.get (rows i), c i.1, ?_, ?_, ?_⟩
    · rw [← hrows, hb.equationOffsets]
      simp
    · simp [ha.equationOffsets]
    · have := hc (rows i)
      rwa [rows.symm_apply_apply] at this
  · refine ⟨o.d.get (columns j), d j.1, ?_, ?_, ?_⟩
    · rw [← hcolumns, hb.unknownOffsets]
      simp
    · simp [ha.unknownOffsets]
    · have := hd (columns j)
      rwa [columns.symm_apply_apply] at this

end removal

theorem Remains.unedited (h : Remains m σ c d e ed) (hremoves : e.RemovesPairs a) (hnone : e.deletedEquations = []) :
    ed.dimension = n ∧ (∀ i, ed.rows.place i = i) ∧ ∀ j, ed.columns.place j = j := by
  have hplace := h.rows.1.place_eq_self (h.deletedEquations.trans hnone)
  have hplace' := h.columns.1.place_eq_self (h.deletedUnknowns.trans (hremoves.unknowns_eq_nil hnone))
  refine ⟨?_, hplace, hplace'⟩
  rw [h.height, hplace, hremoves.newRows]
  rfl

/-- **Removing matched pairs needs no new matching.** -/
theorem analyse_removal (ha : a.Found m) (he : e.Built) (hremoves : e.RemovesPairs a)
    (hno : ofEdit m a e ≠ .error .overflow) :
    ∃ ed row column, ofEdit m a e = .ok ed ∧ ed.Faithful m a e row column ∧ ed.start.freeRows = [] ∧
      ∀ settings, ed.analyse settings ≠ .error .overflow → ∃ b, ed.analyse settings = .ok b ∧
        ed.Inherits m a e row column b ∧ (e.deletedEquations = [] → b = { a with layout := none }) := by
  obtain ⟨σ, c, d, hrecords, htight, hcanonical⟩ := ha.solves
  have hfits := hremoves.fits hrecords he.sorted
  rw [ofEdit_eq, ofEditListed] at hno ⊢
  have hno' : remains m a e ≠ .error .overflow := fun h => hno (by rw [h]; rfl)
  obtain ⟨ed₀, hremains, h⟩ := (remains_spec hrecords he.sorted).exists_answer hno' fun _ hrefused => hrefused hfits
  obtain ⟨row, column, hrow, hcolumn, hlisted⟩ := h.exists_faithful hrecords htight.isTransversal he.sound
  obtain ⟨t, ht, hwritten, hfaithful⟩ := hlisted _ e.listedBy_listing
  have hcarried := h.carried hwritten
  obtain ⟨rows, columns, τ, hleft, hrows, hcolumns⟩ := hfaithful.exists_isLeft hrecords hremoves
  have hτ := hfaithful.columnOf_isLeft hrecords hleft hrows hcolumns
  refine ⟨{ ed₀ with matrix := t }, row, column, ?_, hfaithful, hfaithful.freeRows_eq_nil hτ, fun settings hover => ?_⟩
  · rw [hremains]
    exact ht
  · have hspec := analyse_complete_spec settings (hcarried.valid htight.isTransversal)
      (hcarried.proves hcanonical.covers htight) hτ
    obtain ⟨b, hb, o, hb', hleast, hlayout⟩ := hspec.exists_answer hover fun _ hno => hno
    have hinherits := inherits hrecords hcanonical htight he.sorted hremoves hleft hrows hcolumns hb' hleast
    refine ⟨b, hb, hinherits, fun hnone => ?_⟩
    obtain ⟨hdimension, hplace, hplace'⟩ := h.unedited hremoves hnone
    refine hleft.analysis_eq hdimension hnone (hremoves.unknowns_eq_nil hnone) (fun i => ?_) (fun j => ?_) hrecords
      hcanonical hb' hleast hlayout
    · rw [hrows, hrow.kept, hplace]
    · rw [hcolumns, hcolumn.kept, hplace']

end Edited

/-- The pendulum without its first equation of motion and the tension, which that is solved for. -/
def Edit.pendulumRemoval : Edit := ((removeUnknown 2).apply ((removeEquation 1).apply .empty).2).2

theorem Edited.analyse_removal_pendulum :
    ∃ a : Analysis, a.Found Signature.pendulum ∧ Edit.pendulumRemoval.Built ∧ Edit.pendulumRemoval.RemovesPairs a ∧
      ofEdit Signature.pendulum a Edit.pendulumRemoval ≠ .error .overflow ∧
      ∃ ed row column, ofEdit Signature.pendulum a Edit.pendulumRemoval = .ok ed ∧
        ed.Faithful Signature.pendulum a Edit.pendulumRemoval row column ∧ ed.start.freeRows = [] ∧
        ∃ b, ed.analyse {} = .ok b ∧ ed.Inherits Signature.pendulum a Edit.pendulumRemoval row column b := by
  let a : Analysis := ⟨#[2, 0, 0], #[2, 2, 0], #[0, 2, 1], #[0, 2, 1], -2, none⟩
  have ha : a.Found Signature.pendulum := .analysed {} (by decide +kernel)
  have hbuilt : Edit.pendulumRemoval.Built := .removeUnknown _ (.removeEquation _ .empty)
  have hremoves : Edit.pendulumRemoval.RemovesPairs a := by
    have hequations : Edit.pendulumRemoval.deletedEquations = [1] := by decide +kernel
    have hunknowns : Edit.pendulumRemoval.deletedUnknowns = [2] := by decide +kernel
    refine ⟨by decide +kernel, fun j => ?_, Array.eq_empty_of_size_eq_zero (by decide +kernel), by decide +kernel⟩
    simp [hequations, hunknowns, a, eq_comm]
  have hrun : (ofEdit Signature.pendulum a Edit.pendulumRemoval).map
      (fun ed => decide (ed.analyse {} ≠ .error .overflow)) = .ok true := by
    decide +kernel
  have hno : ofEdit Signature.pendulum a Edit.pendulumRemoval ≠ .error .overflow := by
    intro h
    rw [h] at hrun
    cases hrun
  obtain ⟨ed, row, column, hed, hfaithful, hfree, hanalyse⟩ := analyse_removal ha hbuilt hremoves hno
  rw [hed] at hrun
  obtain ⟨b, hb, hinherits, -⟩ := hanalyse {} (by simpa [Except.map] using hrun)
  exact ⟨a, ha, hbuilt, hremoves, hno, ed, row, column, hed, hfaithful, hfree, b, hb, hinherits⟩

/-- The length need not be differentiated any more. -/
example : (Edited.ofEdit Signature.pendulum ⟨#[2, 0, 0], #[2, 2, 0], #[0, 2, 1], #[0, 2, 1], -2, none⟩
    Edit.pendulumRemoval >>= Edited.analyse {}).map (fun b => (b.c, b.d)) = .ok (#[0, 0], #[0, 2]) := by
  decide +kernel

end SigmaMethod
