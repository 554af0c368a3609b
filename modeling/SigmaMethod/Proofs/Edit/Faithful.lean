import SigmaMethod.Proofs.Offsets.StaleStart

/-!
# What an edit does to a problem

The lines that are left and the new ones are exactly the lines of the edited problem, each in one place. The entries and
the pairs of the old problem are at the places of their lines, the entries of the edit at the places of its own, and the
old offsets are the potentials. It does not matter in which order new equations are written.
-/

namespace SigmaMethod

variable {n dimension added : Nat} {m : Signature n} {a : Analysis} {deleted : List Nat} {σ : Equiv.Perm (Fin n)}
  {c d : Fin n → Int} {e : Edit} {ed : Edited}

/-! ## Places -/

abbrev Survivor (n : Nat) (deleted : List Nat) : Type := { i : Fin n // i.val ∉ deleted }

structure Renumbering.Places (r : Renumbering) (place : Survivor n deleted ⊕ Fin added ≃ Fin dimension) : Prop where
  bound : r.bound = n
  deletions : r.deleted = deleted
  kept : ∀ i, (place (.inl i)).val = r.place i.1
  fresh : ∀ k, (place (.inr k)).val = r.place n + k

theorem Renumbering.exists_places {r : Renumbering} (hbound : r.bound = n) (hdeleted : r.deleted = deleted)
    (hdimension : dimension = r.place n + added) :
    ∃ place : Survivor n deleted ⊕ Fin added ≃ Fin dimension, r.Places place := by
  subst hbound hdeleted
  have hkeeps : ∀ i : Survivor r.bound r.deleted, r.Keeps i.1 := fun i => ⟨i.1.isLt, i.2⟩
  have hlt : ∀ i : Survivor r.bound r.deleted, r.place i.1 < r.place r.bound := fun i => (hkeeps i).place_lt_bound
  let place : Survivor r.bound r.deleted ⊕ Fin added → Fin dimension
    | .inl i => ⟨r.place i.1, by have := hlt i; omega⟩
    | .inr k => ⟨r.place r.bound + k, by omega⟩
  have hinjective : Function.Injective place := by
    rintro (i | k) (i' | k') heq <;> have heq := Fin.val_eq_of_eq heq <;> dsimp only [place] at heq
    · exact congrArg _ (Subtype.ext (Fin.ext ((hkeeps i).eq_of_place (hkeeps i') heq)))
    · have := hlt i
      omega
    · have := hlt i'
      omega
    · exact congrArg _ (Fin.ext (by omega))
  have hsurjective : Function.Surjective place := by
    intro k
    by_cases hk : k.val < r.place r.bound
    · obtain ⟨i, hi, hplace⟩ := exists_place hk
      exact ⟨.inl ⟨⟨i, hi.1⟩, hi.2⟩, Fin.ext hplace⟩
    · exact ⟨.inr ⟨k - r.place r.bound, by omega⟩, Fin.ext (by dsimp only [place]; omega)⟩
  exact ⟨.ofBijective place ⟨hinjective, hsurjective⟩, rfl, rfl, fun _ => rfl, fun _ => rfl⟩

structure Numbers (old : Nat → Outcome (Option Nat)) (new : Nat → Outcome Nat)
    (place : Survivor n deleted ⊕ Fin added ≃ Fin dimension) : Prop where
  dropped : ∀ i : Fin n, i.val ∈ deleted → old i = .ok none
  kept : ∀ i, old i.1 = .ok (some (place (.inl i)))
  fresh : ∀ k : Fin added, new k = .ok (place (.inr k))
  increasing : ∀ i i', i.1 < i'.1 → place (.inl i) < place (.inl i')
  behind : ∀ i k, place (.inl i) < place (.inr k)

section places

variable {r : Renumbering} {place : Survivor n deleted ⊕ Fin added ≃ Fin dimension}

theorem Renumbering.Places.keeps (h : r.Places place) (i : Survivor n deleted) : r.Keeps i.1 :=
  ⟨h.bound ▸ i.1.isLt, h.deletions ▸ i.2⟩

theorem Renumbering.Places.place_lt (h : r.Places place) (i : Survivor n deleted) : r.place i.1 < r.place n :=
  h.bound ▸ (h.keeps i).place_lt_bound

theorem Renumbering.Places.numbers (h : r.Places place) (hregular : r.Regular)
    (hcounted : dimension < 18446744073709551616) {count : Nat} (hcount : count = added) {space space' : IndexSpace} :
    Numbers (fun i => do checkIndex space i r.bound; r.rename i)
      (fun k => do checkIndex space' k count; fitIndex ((← r.surviving) + k)) place := by
  subst hcount
  have hcheck : ∀ {space i bound}, i < bound → checkIndex space i bound = .ok () := fun hi => if_pos hi
  refine ⟨fun i hi => ?_, fun i => ?_, fun k => ?_, fun i i' hlt => ?_, fun i k => ?_⟩
  · rw [h.bound, hcheck i.isLt, hregular.rename_eq, if_neg fun hkeep => hkeep.2 (h.deletions ▸ hi)]
    rfl
  · rw [h.bound, hcheck i.1.isLt, hregular.rename_eq, if_pos (h.keeps i), h.kept]
    rfl
  · have hplace := h.fresh k
    have hlt := (place (.inr k)).isLt
    rw [hcheck k.isLt, hregular.surviving_eq, h.bound]
    change fitIndex (r.place n + k) = _
    rw [fitIndex, if_pos (by omega), hplace]
  · rw [Fin.lt_def, h.kept, h.kept]
    exact (h.keeps i).place_lt hlt
  · have := h.place_lt i
    rw [Fin.lt_def, h.kept, h.fresh]
    omega

end places

/-! ## Faithful edits -/

def Edit.entry (e : Edit) (m : Signature n) : Survivor n e.deletedEquations ⊕ Fin e.newRows.size →
    Survivor n e.deletedUnknowns ⊕ Fin e.newUnknowns → Option Int
  | .inl i, .inl j => m.get i.1 j.1
  | .inl _, .inr _ => none
  | .inr ⟨k, _⟩, .inl j => (e.newRows[k].existing.find? j.1.val).map (- ·)
  | .inr ⟨k, _⟩, .inr y => (e.newRows[k].added.find? y.val).map (- ·)

/-- The edited problem `ed` is the problem `m`, analysed as `a`, with edit `e` applied. Its rows are numbered by `row`
and its columns by `column`. -/
structure Edited.Faithful (m : Signature n) (a : Analysis) (e : Edit) (ed : Edited)
    (row : Survivor n e.deletedEquations ⊕ Fin e.newRows.size ≃ Fin ed.dimension)
    (column : Survivor n e.deletedUnknowns ⊕ Fin e.newUnknowns ≃ Fin ed.dimension) : Prop where
  rows : Numbers ed.oldRow ed.newRow row
  columns : Numbers ed.oldColumn ed.newColumn column
  /-- Whatever a new equation names has a column. -/
  existing : ∀ r ∈ e.newRows.toList, ∀ j x, r.existing.find? j = some x → j < n ∧ j ∉ e.deletedUnknowns
  added : ∀ r ∈ e.newRows.toList, ∀ y x, r.added.find? y = some x → y < e.newUnknowns
  entries : ∀ k l, ed.matrix.get (row k) (column l) = e.entry m k l
  valid : ed.start.validate ed.matrix = .ok ()
  columnOf : ∀ k l : Nat, ed.start.columnOf[k]? = some (some l) ↔
    ∃ i j, a.columnOf[i.1.val]? = some j.1.val ∧ (row (.inl i)).val = k ∧ (column (.inl j)).val = l
  rowOf : ∀ k l : Nat, ed.start.rowOf[l]? = some (some k) ↔
    ∃ i j, a.columnOf[i.1.val]? = some j.1.val ∧ (row (.inl i)).val = k ∧ (column (.inl j)).val = l
  u : ∀ i, ed.start.u[(row (.inl i)).val]? = a.c[i.1.val]?
  v : ∀ j, ed.start.v[(column (.inl j)).val]? = a.d[j.1.val]?.map (- ·)

namespace Edited

section remains

variable {row : Survivor n e.deletedEquations ⊕ Fin e.newRows.size ≃ Fin ed.dimension}
  {column : Survivor n e.deletedUnknowns ⊕ Fin e.newUnknowns ≃ Fin ed.dimension}

theorem Remains.pairAt_iff (h : Remains m σ c d e ed) (hold : a.Records m σ c d) (hrow : ed.rows.Places row)
    (hcolumn : ed.columns.Places column) {k l : Nat} :
    PairAt ed.rows ed.columns σ (List.range n) k l ↔
      ∃ i j, a.columnOf[i.1.val]? = some j.1.val ∧ (row (.inl i)).val = k ∧ (column (.inl j)).val = l := by
  have hpair : ∀ i j : Fin n, a.columnOf[i.val]? = some j.val ↔ σ i = j := by
    intro i j
    simp [hold.columnOf, Fin.ext_iff]
  simp only [hpair, hrow.kept, hcolumn.kept]
  constructor
  · rintro ⟨i, -, hi, hj, hk, hl⟩
    exact ⟨⟨i, h.deletedEquations ▸ hi.2⟩, ⟨σ i, h.deletedUnknowns ▸ hj.2⟩, rfl, hk, hl⟩
  · rintro ⟨i, j, hij, hk, hl⟩
    exact ⟨i.1, List.mem_range.mpr i.1.isLt, hrow.keeps i, hij ▸ hcolumn.keeps j, hk, hij ▸ hl⟩

theorem Remains.carried (h : Remains m σ c d e ed) {t : Signature ed.dimension}
    (ht : e.Written ed.columns (ed.rows.place n) (ed.columns.place n) ed.matrix t) :
    Carried m σ c d { ed with matrix := t } := by
  refine h.write fun k l hk => Option.ext fun x => ?_
  rw [ht, or_iff_left (Edit.not_sets_above hk)]

theorem Remains.entry_eq (h : Remains m σ c d e ed) {t : Signature ed.dimension}
    (ht : e.Written ed.columns (ed.rows.place n) (ed.columns.place n) ed.matrix t)
    (hrow : ed.rows.Places row) (hcolumn : ed.columns.Places column) (k l) :
    t.get (row k) (column l) = e.entry m k l := by
  have hneg : ∀ {o : Option Int} {x : Int}, o = some (-x) ↔ o.map (- ·) = some x := by
    intro o x
    cases o <;> simp [neg_eq_iff_eq_neg]
  rw [← t.cost?_eq]
  refine Option.ext fun x => ?_
  rw [ht]
  cases k with
  | inl i =>
    have hrow' := hrow.place_lt i
    rw [or_iff_left (Edit.not_sets_above (hrow.kept i ▸ hrow')), hrow.kept]
    cases l with
    | inl j =>
      rw [hcolumn.kept, h.cost?_place (hrow.keeps i) (hcolumn.keeps j)]
      rfl
    | inr y =>
      rw [hcolumn.fresh, h.entries _ _ _ hrow', Edit.entry]
      refine iff_of_false ?_ (fun hx => nomatch hx)
      rintro ⟨i', -, -, hmem⟩
      obtain ⟨-, j, -, hj, hplace⟩ := mem_carried.mp hmem
      have := h.columns.2.1 ▸ hj.place_lt_bound
      omega
  | inr k =>
    have hk : e.newRows[k.val]? = some e.newRows[k] := Array.getElem?_eq_getElem k.isLt
    rw [hrow.fresh, or_iff_right (by rw [h.fresh _ _ (Nat.le_add_right ..)]; exact fun hx => nomatch hx)]
    cases l with
    | inl j =>
      rw [hcolumn.kept, h.room.sets_existing h.fits hk (hcolumn.keeps j)]
      exact hneg
    | inr y =>
      rw [hcolumn.fresh, h.room.sets_added h.fits hk]
      exact hneg

theorem Remains.faithful (h : Remains m σ c d e ed) (hold : a.Records m σ c d) (hσ : m.IsTransversal σ) (he : e.Sound)
    {t : Signature ed.dimension} (ht : e.Written ed.columns (ed.rows.place n) (ed.columns.place n) ed.matrix t)
    (hrow : ed.rows.Places row) (hcolumn : ed.columns.Places column) :
    Faithful m a e { ed with matrix := t } row column where
  rows := hrow.numbers h.rows.1 h.counted h.counts.1
  columns := hcolumn.numbers h.columns.1 h.counted h.counts.2
  existing r hr j x hx := h.fits.references r hr j (List.mem_map_of_mem (SortedMap.find?_eq_some_iff.mp hx))
  added r hr y x hx := ((he r hr).added y x hx).1
  entries := h.entry_eq ht hrow hcolumn
  valid := PartialMatching.validate_eq_ok_iff.mpr ((h.carried ht).valid hσ)
  columnOf k l := (h.columnOf k l).trans (h.pairAt_iff hold hrow hcolumn)
  rowOf k l := (h.rowOf k l).trans (h.pairAt_iff hold hrow hcolumn)
  u i := by
    rw [hrow.kept, h.u i.1 (hrow.keeps i), hold.equationOffsets]
    simp
  v j := by
    rw [hcolumn.kept, h.v j.1 (hcolumn.keeps j), hold.unknownOffsets]
    simp

end remains

theorem Remains.exists_faithful (h : Remains m σ c d e ed) (hold : a.Records m σ c d) (hσ : m.IsTransversal σ)
    (he : e.Sound) : ∃ row column, ed.rows.Places row ∧ ed.columns.Places column ∧ ∀ ls, e.ListedBy ls →
      ∃ t, writeNew ls ed = .ok { ed with matrix := t } ∧
        e.Written ed.columns (ed.rows.place n) (ed.columns.place n) ed.matrix t ∧
        Faithful m a e { ed with matrix := t } row column := by
  obtain ⟨row, hrow⟩ := Renumbering.exists_places h.rows.2.1 h.deletedEquations h.height
  obtain ⟨column, hcolumn⟩ := Renumbering.exists_places h.columns.2.1 h.deletedUnknowns h.width
  refine ⟨row, column, hrow, hcolumn, fun ls hls => ?_⟩
  obtain ⟨t, ht, hwritten⟩ := h.exists_writeNew he hls
  exact ⟨t, ht, hwritten, h.faithful hold hσ he hwritten hrow hcolumn⟩

end Edited

/-! ## Edits of analysed problems -/

/-- The analysis `a` is one that some analysis of `m` has returned: of the problem alone, after an edit that led to it,
or of an outer problem with components that it spells out. -/
inductive Analysis.Found : {n : Nat} → Signature n → Analysis → Prop
  | analysed {n : Nat} {m : Signature n} {a : Analysis} (settings : Settings) : m.analyse settings = .ok a → Found m a
  | edited {ed : Edited} {a : Analysis} (settings : Settings) : ed.analyse settings = .ok a → Found ed.matrix a
  | compressed {n : Nat} {outer : Signature n} {ps : Placements} {s : Matching} {x : Expanded} {a : Analysis}
      (settings : Settings) :
      (∀ p ∈ ps.toList, ∃ b : ComponentBuilder, b.Built ∧ b.build = .ok p.component) →
      outer.solve settings = .ok s → ps.expand outer s = .ok x → ps.analyse settings outer = .ok a → Found x.matrix a

theorem Analysis.Found.solves (h : a.Found m) : a.Solves m := by
  cases h with
  | analysed settings ha => exact (m.analyse_spec settings).answer ha
  | edited settings ha => exact Edited.solves_of_analyse ha
  | compressed settings hbuilt hs hx ha =>
    rename_i outer ps s x
    have hexact : ∀ p ∈ ps.toList, p.component.Exact := fun p hp => Component.exact_of_built (hbuilt p hp)
    obtain ⟨s', x', hs', hx', hsolves⟩ := Placements.solves_of_analyse hexact ha
    obtain rfl : s = s' := Except.ok.inj (hs.symm.trans hs')
    obtain rfl : x = x' := Except.ok.inj (hx.symm.trans hx')
    exact hsolves

/-- **An edit is faithful**, in whatever order its new equations are written. -/
theorem Edited.ofEdit_faithful (ha : a.Found m) (he : e.Built) (hed : ofEdit m a e = .ok ed) :
    ∃ row column, ed.Faithful m a e row column ∧ ∀ ls, e.ListedBy ls →
      ∃ t, ofEditListed ls m a e = .ok { ed with matrix := t } ∧
        Faithful m a e { ed with matrix := t } row column := by
  obtain ⟨σ, c, d, hrecords, htight, -⟩ := ha.solves
  rw [ofEdit_eq, ofEditListed] at hed
  obtain ⟨ed₀, hremains, hwrite⟩ := bind_eq_ok_iff.mp hed
  have h := (remains_spec hrecords he.sorted).answer hremains
  obtain ⟨row, column, -, -, hlisted⟩ := h.exists_faithful hrecords htight.isTransversal he.sound
  obtain ⟨t, ht, -, hfaithful⟩ := hlisted _ e.listedBy_listing
  cases ht.symm.trans hwrite
  refine ⟨row, column, hfaithful, fun ls hls => ?_⟩
  obtain ⟨t', ht', -, hfaithful'⟩ := hlisted ls hls
  rw [ofEditListed, hremains]
  exact ⟨t', ht', hfaithful'⟩

theorem Edited.ofEdit_faithful_pendulum :
    ∃ (a : Analysis) (ed : Edited), a.Found Signature.pendulum ∧ Edit.pendulumEdit.Built ∧
      ofEdit Signature.pendulum a Edit.pendulumEdit = .ok ed ∧
      ∃ row column, ed.Faithful Signature.pendulum a Edit.pendulumEdit row column ∧
        ∀ ls, Edit.pendulumEdit.ListedBy ls →
          ∃ t, ofEditListed ls Signature.pendulum a Edit.pendulumEdit = .ok { ed with matrix := t } ∧
            Faithful Signature.pendulum a Edit.pendulumEdit { ed with matrix := t } row column := by
  let a : Analysis := ⟨#[2, 0, 0], #[2, 2, 0], #[0, 2, 1], #[0, 2, 1], -2, none⟩
  have ha : a.Found Signature.pendulum := .analysed {} (by decide +kernel)
  have hbuilt : Edit.pendulumEdit.Built :=
    .setNew _ _ _ (.setExisting _ _ _ (.addUnknown (.addEquation (.removeUnknown _ (.removeEquation _ .empty)))))
  have hok : (ofEdit Signature.pendulum a Edit.pendulumEdit).isOk = true := by decide +kernel
  obtain ⟨ed, hed⟩ := isOk_iff.mp hok
  exact ⟨a, ed, ha, hbuilt, hed, ofEdit_faithful ha hbuilt hed⟩

end SigmaMethod
