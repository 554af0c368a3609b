import SigmaMethod.Proofs.Edit.History

/-!
# Edits that can be applied

The commands refuse to delete an unknown that a new equation names, and to name one that is deleted, so no edit does
both. Where its lines exist and the edited problem is square, an edit is applied, whatever the old analysis has
recorded: entries and pairs that are left have places, and new equations name unknowns that have. So `validate` alone
decides, and an edit is refused for a line that is not there or for its counts.
-/

namespace SigmaMethod

variable {n dimension : Nat}

namespace Edit

variable {e : Edit}

def Consistent (e : Edit) : Prop :=
  ∀ r ∈ e.newRows.toList, ∀ j x, r.existing.find? j = some x → j ∉ e.deletedUnknowns

theorem not_mem_of_references {j : Nat} (h : e.references j = false) {r : NewRow} (hr : r ∈ e.newRows.toList) :
    r.existing.find? j = none := by
  unfold references at h
  rw [Array.any_eq_false'] at h
  simpa using h r (Array.mem_toList_iff.mp hr)

theorem Built.consistent (h : e.Built) : e.Consistent := by
  refine h.invariant (fun r hr => nomatch hr) fun e e' he hstep hs => ?_
  -- an unknown may be deleted and then named, or named and then deleted: each order has its own guard
  cases hstep with
  | removeEquation => exact hs
  | removeUnknown hreferences hj =>
    intro r hr i x hx hi
    rcases ((insertNew_spec he.sorted.unknowns hj).2 i).mp hi with rfl | hi
    · rw [not_mem_of_references hreferences hr] at hx
      cases hx
    · exact hs r hr i x hx hi
  | addEquation =>
    intro r hr
    rcases mem_of_mem_push hr with hr | rfl
    · exact hs r hr
    · exact fun j x hx => (nomatch hx)
  | addUnknown => exact hs
  | setExisting hk hj _ =>
    intro r hr i x hx
    rcases mem_of_mem_set hk hr with hr | rfl
    · exact hs r hr i x hx
    · rw [SortedMap.find?_put] at hx
      split at hx
      · subst ‹i = _›
        exact hj
      · exact hs _ (Array.getElem_mem_toList hk) i x hx
  | setNew hk =>
    intro r hr i x hx
    rcases mem_of_mem_set hk hr with hr | rfl
    · exact hs r hr i x hx
    · exact hs _ (Array.getElem_mem_toList hk) i x hx

theorem exists_find?_of_mem_keys {κ α : Type} [Ranked κ] {m : SortedMap κ α} {k : κ} (h : k ∈ m.keys) :
    ∃ x, m.find? k = some x := by
  obtain ⟨⟨_, x⟩, hmem, rfl⟩ := List.mem_map.mp h
  exact ⟨x, SortedMap.find?_eq_some_iff.mpr hmem⟩

theorem Built.fits_iff (he : e.Built) : e.Fits n ↔ e.InBounds n ∧ e.equationsLeft n = e.unknownsLeft n := by
  constructor
  · exact fun h => ⟨h.inBounds, h.square⟩
  · rintro ⟨hbounds, hsquare⟩
    obtain ⟨hequations, hunknowns, hreferences⟩ := inBounds_iff.mp hbounds
    refine ⟨hequations, hunknowns, fun r hr j hj => ⟨hreferences r hr j hj, ?_⟩, hsquare⟩
    obtain ⟨x, hx⟩ := exists_find?_of_mem_keys hj
    exact he.consistent r hr j x hx

theorem Built.rejects (he : e.Built) {r : Refusal} (h : e.Rejects n r) :
    (∃ space i, e.Names space i ∧ n ≤ i ∧ r = .invalidIndex space i n) ∨
      e.InBounds n ∧ e.equationsLeft n ≠ e.unknownsLeft n ∧
        r = .invalidEdit (.notSquare (e.equationsLeft n) (e.unknownsLeft n)) := by
  cases h with
  | index hnames hi => exact .inl ⟨_, _, hnames, hi, rfl⟩
  | reference hr hj hdeleted =>
    obtain ⟨x, hx⟩ := exists_find?_of_mem_keys hj
    exact absurd hdeleted (he.consistent _ hr _ x hx)
  | notSquare hbounds hne => exact .inr ⟨hbounds, hne, rfl⟩

end Edit

/-! ## What is left is carried over -/

/-- The record of an analysis of `n` lines, whose matching may be any; each offset of an unknown can be negated. -/
structure Analysis.Spans (a : Analysis) (n : Nat) : Prop where
  c : a.c.size = n
  d : a.d.size = n
  columnOf : a.columnOf.size = n
  negatable : ∀ x ∈ a.d.toList, InRange x ∧ x ≠ -2147483648

structure PartialMatching.Spans (p : PartialMatching) (n : Nat) : Prop where
  u : p.u.size = n
  v : p.v.size = n
  columnOf : p.columnOf.size = n
  rowOf : p.rowOf.size = n

theorem PartialMatching.empty_spans (n : Nat) : (PartialMatching.empty n).Spans n := by
  constructor <;> simp [PartialMatching.empty]

namespace Edited

variable {m : Signature n} {old : Analysis} {rows columns : Renumbering} {p : PartialMatching}

/-! ## What is read of the old analysis -/

def offsetTest (old : Analysis) (deleted : List Nat) (j : Nat) : Outcome Unit :=
  if j ∈ deleted then .ok ()
  else
    match old.d[j]? with
    | none => .error .outOfBounds
    | some x => if InRange (-x) then .ok () else .error .overflow

def columnTest (old : Analysis) (deleted : List Nat) (i : Nat) : Outcome Unit :=
  if i ∈ deleted ∨ i < old.columnOf.size then .ok () else .error .outOfBounds

theorem offsetTest_eq_ok_iff {deleted : List Nat} {j : Nat} :
    offsetTest old deleted j = .ok () ↔ (j ∉ deleted → ∃ x, old.d[j]? = some x ∧ InRange (-x)) := by
  unfold offsetTest
  by_cases hj : j ∈ deleted
  · simp [hj]
  · cases old.d[j]? with
    | none => simp [hj]
    | some x => by_cases hx : InRange (-x) <;> simp [hj, hx]

theorem offsetTest_eq_outOfBounds_iff {deleted : List Nat} {j : Nat} :
    offsetTest old deleted j = .error .outOfBounds ↔ j ∉ deleted ∧ old.d.size ≤ j := by
  unfold offsetTest
  rw [← Array.getElem?_eq_none_iff]
  by_cases hj : j ∈ deleted
  · simp [hj]
  · cases old.d[j]? with
    | none => simp [hj]
    | some x => by_cases hx : InRange (-x) <;> simp [hj, hx]

theorem columnTest_eq_ok_iff {deleted : List Nat} {i : Nat} :
    columnTest old deleted i = .ok () ↔ (i ∉ deleted → i < old.columnOf.size) := by
  unfold columnTest
  by_cases hi : i ∈ deleted <;> by_cases hlt : i < old.columnOf.size <;> simp [hi, hlt]

theorem columnTest_eq_error_iff {deleted : List Nat} {i : Nat} {f : Failure} :
    columnTest old deleted i = .error f ↔ (i ∉ deleted ∧ old.columnOf.size ≤ i) ∧ f = .outOfBounds := by
  unfold columnTest
  by_cases hi : i ∈ deleted <;> by_cases hlt : i < old.columnOf.size <;> simp [hi, hlt, eq_comm]
  omega

/-! ## Carrying over -/

theorem carryColumns_endsAs (hcolumns : columns.Regular) (hbound : columns.bound = n)
    (hwidth : columns.place n ≤ dimension) (hp : p.Spans dimension) :
    EndsAs (carryColumns old n columns p) ((List.range n).forM (offsetTest old columns.deleted))
      fun q => q.Spans dimension := by
  unfold carryColumns
  refine .foldlM hp fun j hj q hq => ?_
  rw [hcolumns.rename_eq]
  unfold offsetTest
  by_cases hdeleted : j ∈ columns.deleted
  · rw [if_pos hdeleted, if_neg fun hkeep => hkeep.2 hdeleted]
    exact Succeeds.pure hq
  · have hkeep : columns.Keeps j := ⟨hbound.symm ▸ List.mem_range.mp hj, hdeleted⟩
    rw [if_neg hdeleted, if_pos hkeep, ok_bind]
    unfold lookAt
    cases old.d[j]? with
    | none => rfl
    | some x =>
      dsimp only
      rw [ok_bind]
      unfold fit
      by_cases hx : InRange (-x)
      · rw [if_pos hx, if_pos hx, ok_bind]
        have hplace : columns.place j < q.v.size := by
          have := hkeep.place_lt_bound
          rw [hbound] at this
          rw [hq.v]
          omega
        refine (Succeeds.writeAt (P := fun v => v.size = q.v.size) hplace (by simp)).bind fun v hv => .pure ?_
        exact ⟨hq.u, hv.trans hq.v, hq.columnOf, hq.rowOf⟩
      · rw [if_neg hx, if_neg hx]
        rfl

def EmptyFrom (t : Signature dimension) (firstRow : Nat) : Prop := ∀ k l, firstRow ≤ k → t.cost? k l = none

theorem carryRow_endsAs {i : Nat} {t : Signature dimension} (hc : old.c.size = n) (hrows : rows.bound = n)
    (hcolumns : columns.Regular) (hbound : columns.bound = n) (hheight : rows.place n ≤ dimension)
    (hwidth : columns.place n ≤ dimension) (hkeep : rows.Keeps i) (ht : EmptyFrom t (rows.place n))
    (hp : p.Spans dimension) :
    EndsAs (carryRow m old columns i (rows.place i) t p) (columnTest old rows.deleted i) fun r =>
      EmptyFrom r.1 (rows.place n) ∧ r.2.Spans dimension := by
  have hplace : rows.place i < rows.place n := hrows ▸ hkeep.place_lt_bound
  have hcolumn : ∀ j, columns.Keeps j → columns.place j < dimension := by
    intro j hj
    have := hj.place_lt_bound
    rw [hbound] at this
    omega
  unfold carryRow
  refine .bind_left (.lookAt (P := fun _ => True) (by rw [hc, ← hrows]; exact hkeep.1) trivial) fun c _ => ?_
  refine .bind_left (.writeAt (P := fun u => u.size = p.u.size) (by rw [hp.u]; omega) (by simp)) fun u hu => ?_
  refine .bind_left (.foldlM (I := fun t : Signature dimension => EmptyFrom t (rows.place n)) ht fun e _ t ht => ?_)
    fun t' ht' => ?_
  · dsimp only
    rw [hcolumns.rename_eq]
    by_cases hj : columns.Keeps e.1
    · rw [if_pos hj]
      refine (t.insert_succeeds e.2 (by omega) (hcolumn _ hj)).imp fun t' hput k l hk => ?_
      rw [hput, if_neg (by omega), ht k l hk]
    · rw [if_neg hj]
      exact .pure ht
  refine EndsAs.bind_right (P := fun _ => True) ?_ fun j _ => ?_
  · unfold columnTest lookAt
    by_cases hi : i < old.columnOf.size
    · rw [if_pos (.inr hi), Array.getElem?_eq_getElem hi]
      exact Succeeds.ok trivial
    · rw [if_neg fun h => h.elim hkeep.2 hi, Array.getElem?_eq_none (Nat.not_lt.mp hi)]
      rfl
  rw [hcolumns.rename_eq]
  by_cases hj : columns.Keeps j
  · have := hcolumn j hj
    rw [if_pos hj]
    refine (Succeeds.writeAt (P := fun xs => xs.size = p.columnOf.size) (by rw [hp.columnOf]; omega) (by simp)).bind
      fun columnOf hcolumnOf => ?_
    refine (Succeeds.writeAt (P := fun xs => xs.size = p.rowOf.size) (by rw [hp.rowOf]; omega) (by simp)).bind
      fun rowOf hrowOf => .pure ⟨ht', ?_⟩
    exact ⟨hu.trans hp.u, hp.v, hcolumnOf.trans hp.columnOf, hrowOf.trans hp.rowOf⟩
  · rw [if_neg hj]
    exact .pure ⟨ht', hu.trans hp.u, hp.v, hp.columnOf, hp.rowOf⟩

theorem carryRows_endsAs {t : Signature dimension} (hc : old.c.size = n) (hrows : rows.Regular)
    (hrowsBound : rows.bound = n) (hcolumns : columns.Regular) (hbound : columns.bound = n)
    (hheight : rows.place n ≤ dimension) (hwidth : columns.place n ≤ dimension) (ht : EmptyFrom t (rows.place n))
    (hp : p.Spans dimension) :
    EndsAs (carryRows m old rows columns t p) ((List.range n).forM (columnTest old rows.deleted)) fun r =>
      EmptyFrom r.1 (rows.place n) ∧ r.2.Spans dimension := by
  unfold carryRows
  refine .foldlM ⟨ht, hp⟩ ?_
  rintro i hi ⟨t, p⟩ ⟨ht, hp⟩
  dsimp only at ht hp ⊢
  rw [hrows.rename_eq]
  by_cases hdeleted : i ∈ rows.deleted
  · rw [if_neg fun hkeep => hkeep.2 hdeleted, columnTest, if_pos (.inl hdeleted)]
    exact Succeeds.pure ⟨ht, hp⟩
  · have hkeep : rows.Keeps i := ⟨hrowsBound.symm ▸ List.mem_range.mp hi, hdeleted⟩
    rw [if_pos hkeep]
    exact carryRow_endsAs hc hrowsBound hcolumns hbound hheight hwidth hkeep ht hp

/-! ## The edited problem -/

variable {e : Edit}

def readTests (n : Nat) (old : Analysis) (e : Edit) : Outcome Unit := do
  (List.range n).forM (offsetTest old e.deletedUnknowns)
  (List.range n).forM (columnTest old e.deletedEquations)

theorem remains_endsAs (hc : old.c.size = n) (he : e.Built) (hfits : e.Fits n) (hn : n < 18446744073709551616)
    (hcounted : e.equationsLeft n < 18446744073709551616) :
    EndsAs (remains m old e) (readTests n old e) fun ed => ed.rows.Regular ∧ ed.rows.bound = n ∧
      e.Room n ed.columns (ed.rows.place n) (ed.columns.place n) ed.dimension ∧
      EmptyFrom ed.matrix (ed.rows.place n) := by
  have hdimension : ¬ old.dimension ≠ n := Decidable.not_not.mpr hc
  have hvalidate : Succeeds (e.validate n) fun _ => True := by
    have hunknowns : e.unknownsLeft n < 18446744073709551616 := lt_of_eq_of_lt hfits.square.symm hcounted
    rcases (he.sorted.validate_fits fun _ => ⟨hcounted, hunknowns⟩).cases (e.validate_spec n) with
      ⟨_, hok, -⟩ | ⟨_, -, hrejects⟩
    · exact ⟨_, hok, trivial⟩
    · exact absurd hfits hrejects.not_fits
  unfold remains
  rw [if_neg hdimension]
  refine .bind_left hvalidate fun _ _ => ?_
  refine .bind_left (Renumbering.ofDeleted_succeeds he.sorted.equations hfits.equations hn)
    fun rows ⟨hrows, hrowsBound, hrowsDeleted⟩ => ?_
  refine .bind_left (Renumbering.ofDeleted_succeeds he.sorted.unknowns hfits.unknowns hn)
    fun columns ⟨hcolumns, hcolumnsBound, hcolumnsDeleted⟩ => ?_
  have hrowsPlace := hrows.place_bound
  have hcolumnsPlace := hcolumns.place_bound
  rw [hrows.surviving_eq, hcolumns.surviving_eq]
  rw [hrowsBound, hrowsDeleted] at hrowsPlace
  rw [hcolumnsBound, hcolumnsDeleted] at hcolumnsPlace
  rw [hrowsBound]
  change EndsAs (carryColumns old n columns (.empty (rows.place n + e.newRows.size)) >>= _) _ _
  have hsquare := hfits.square
  unfold Edit.equationsLeft at hcounted
  have hheight : rows.place n ≤ rows.place n + e.newRows.size := Nat.le_add_right ..
  have hwidth : columns.place n ≤ rows.place n + e.newRows.size := by omega
  unfold readTests
  rw [← hrowsDeleted, ← hcolumnsDeleted]
  refine (carryColumns_endsAs hcolumns hcolumnsBound hwidth (PartialMatching.empty_spans _)).bind fun p hp => ?_
  refine (carryRows_endsAs hc hrows hrowsBound hcolumns hcolumnsBound hheight hwidth
    (fun k l _ => Signature.cost?_empty) hp).bind_right ?_
  rintro ⟨t, q⟩ ⟨ht, -⟩
  refine .pure ⟨hrows, hrowsBound, ?_, ht⟩
  exact {
    regular := hcolumns
    bound := hcolumnsBound
    deleted := hcolumnsDeleted
    behind := rfl
    height := rfl
    width := by dsimp only; omega
    counted := by dsimp only; omega
  }

theorem ofEdit_endsAs (hc : old.c.size = n) (he : e.Built) (hfits : e.Fits n) (hn : n < 18446744073709551616)
    (hcounted : e.equationsLeft n < 18446744073709551616) :
    EndsAs (ofEdit m old e) (readTests n old e) fun _ => True := by
  rw [ofEdit_eq, ofEditListed]
  refine (remains_endsAs hc he hfits hn hcounted).bind_right fun ed hed => ?_
  obtain ⟨hrows, hbound, hroom, hempty⟩ := hed
  obtain ⟨t, ht, -⟩ := exists_writeNew hrows hbound hroom hfits he.sound hempty e.listedBy_listing
  exact ⟨_, ht, trivial⟩

theorem readTests_eq_ok (hold : old.Spans n) (e : Edit) : readTests n old e = .ok () := by
  have hoffsets : (List.range n).forM (offsetTest old e.deletedUnknowns) = .ok () := by
    refine forM_eq_ok_iff.mpr fun j hj => offsetTest_eq_ok_iff.mpr fun _ => ?_
    have hj : j < old.d.size := hold.d.symm ▸ List.mem_range.mp hj
    obtain ⟨⟨hlow, hhigh⟩, hne⟩ := hold.negatable old.d[j] (by simp)
    exact ⟨_, Array.getElem?_eq_getElem hj, by omega, by omega⟩
  unfold readTests
  rw [hoffsets, ok_bind]
  exact forM_eq_ok_iff.mpr fun i hi => columnTest_eq_ok_iff.mpr fun _ => hold.columnOf.symm ▸ List.mem_range.mp hi

theorem ofEdit_succeeds (hold : old.Spans n) (he : e.Built) (hfits : e.Fits n) (hn : n < 18446744073709551616)
    (hcounted : e.equationsLeft n < 18446744073709551616) : ∃ ed, ofEdit m old e = .ok ed :=
  (ofEdit_endsAs hold.c he hfits hn hcounted).exists_iff.mpr (readTests_eq_ok hold e)

theorem ofEdit_rejected (hc : old.c.size = n) (he : e.Built) (hfits : ¬ e.Fits n) (hcounted : e.InBounds n →
    e.equationsLeft n < 18446744073709551616 ∧ e.unknownsLeft n < 18446744073709551616) :
    ∃ r, ofEdit m old e = refuse r ∧ e.Rejects n r := by
  have hdimension : ¬ old.dimension ≠ n := Decidable.not_not.mpr hc
  rcases (he.sorted.validate_fits hcounted).cases (e.validate_spec n) with ⟨_, hok, -⟩ | ⟨r, hr, hrejects⟩
  · exact absurd ((e.validate_spec n).answer hok).1 hfits
  · refine ⟨r, ?_, hrejects⟩
    unfold ofEdit
    rw [if_neg hdimension, hr]
    rfl

/-- **Whether an edit can be applied is a matter of its indices and its counts.** No new equation of an edit that
commands have built names an unknown that the edit deletes or one that it does not add, or gives a negative derivative
order. Next to any analysis of the right size, the edit is refused for an index out of range, else for counts that
differ, and else applied. -/
theorem ofEdit_total (he : e.Built) :
    (∀ r ∈ e.newRows.toList, (∀ j x, r.existing.find? j = some x → j ∉ e.deletedUnknowns ∧ 0 ≤ x) ∧
      ∀ y x, r.added.find? y = some x → y < e.newUnknowns ∧ 0 ≤ x) ∧
    ∀ (n : Nat) (m : Signature n) (old : Analysis), old.Spans n →
      (¬ e.InBounds n →
        ∃ space i, e.Names space i ∧ n ≤ i ∧ ofEdit m old e = refuse (.invalidIndex space i n)) ∧
      (n < 18446744073709551616 → e.equationsLeft n < 18446744073709551616 → e.unknownsLeft n < 18446744073709551616 →
        ((∃ ed, ofEdit m old e = .ok ed) ↔ e.InBounds n ∧ e.equationsLeft n = e.unknownsLeft n) ∧
        (e.InBounds n → e.equationsLeft n ≠ e.unknownsLeft n →
          ofEdit m old e = refuse (.invalidEdit (.notSquare (e.equationsLeft n) (e.unknownsLeft n))))) := by
  refine ⟨fun r hr => ⟨fun j x hx => ?_, fun y x hx => ?_⟩, fun n m old hold => ⟨fun hbounds => ?_, ?_⟩⟩
  · exact ⟨he.consistent r hr j x hx, ((he.sound r hr).existing j x hx).1⟩
  · obtain ⟨hy, h₀, -⟩ := (he.sound r hr).added y x hx
    exact ⟨hy, h₀⟩
  · obtain ⟨r, hr, hrejects⟩ := ofEdit_rejected (m := m) hold.c he (fun hfits => hbounds hfits.inBounds)
      fun h => absurd h hbounds
    rcases he.rejects hrejects with ⟨space, i, hnames, hi, rfl⟩ | ⟨h, -⟩
    · exact ⟨space, i, hnames, hi, hr⟩
    · exact absurd h hbounds
  · intro hn hrows hcolumns
    have hrejected (hfits : ¬ e.Fits n) := ofEdit_rejected (m := m) hold.c he hfits fun _ => ⟨hrows, hcolumns⟩
    constructor
    · rw [← he.fits_iff]
      constructor
      · rintro ⟨ed, hed⟩
        by_contra hfits
        obtain ⟨r, hr, -⟩ := hrejected hfits
        rw [hed] at hr
        cases hr
      · exact fun hfits => ofEdit_succeeds hold he hfits hn hrows
    · intro hbounds hsquare
      obtain ⟨r, hr, hrejects⟩ := hrejected fun hfits => hsquare hfits.square
      rcases he.rejects hrejects with ⟨space, i, hnames, hi, -⟩ | ⟨-, -, rfl⟩
      · exact absurd (hbounds space i hnames) (Nat.not_lt.mpr hi)
      · exact hr

/-- The pendulum is edited; a problem of one line lacks an equation that the same edit names, and does not stay square
without its only equation. -/
theorem ofEdit_total_pendulum :
    (∃ ed, ofEdit Signature.pendulum ⟨#[2, 0, 0], #[2, 2, 0], #[0, 2, 1], #[0, 2, 1], -2, none⟩ Edit.pendulumEdit =
      .ok ed) ∧
    (∃ space i, Edit.pendulumEdit.Names space i ∧ 1 ≤ i ∧
      ofEdit (Signature.empty 1) ⟨#[0], #[0], #[0], #[0], 0, none⟩ Edit.pendulumEdit =
        refuse (.invalidIndex space i 1)) ∧
    ofEdit (Signature.empty 1) ⟨#[0], #[0], #[0], #[0], 0, none⟩ ((Edit.removeEquation 0).apply .empty).2 =
      refuse (.invalidEdit (.notSquare 0 1)) := by
  have hbuilt : Edit.pendulumEdit.Built :=
    .setNew _ _ _ (.setExisting _ _ _ (.addUnknown (.addEquation (.removeUnknown _ (.removeEquation _ .empty)))))
  have hpendulum : Analysis.Spans ⟨#[2, 0, 0], #[2, 2, 0], #[0, 2, 1], #[0, 2, 1], -2, none⟩ 3 :=
    ⟨rfl, rfl, rfl, by decide⟩
  have hone : Analysis.Spans ⟨#[0], #[0], #[0], #[0], 0, none⟩ 1 := ⟨rfl, rfl, rfl, by decide⟩
  have hbounds : Edit.pendulumEdit.InBounds 3 := Edit.inBounds_iff.mpr (by decide +kernel)
  have hnames : Edit.pendulumEdit.Names .equation 1 := .equation (by decide +kernel)
  refine ⟨?_, ?_, ?_⟩
  · exact (((ofEdit_total hbuilt).2 3 _ _ hpendulum).2 (by decide) (by decide +kernel) (by decide +kernel)).1.mpr
      ⟨hbounds, by decide +kernel⟩
  · exact ((ofEdit_total hbuilt).2 1 _ _ hone).1 fun h => Nat.lt_irrefl 1 (h _ _ hnames)
  · exact (((ofEdit_total (.removeEquation 0 .empty)).2 1 _ _ hone).2 (by decide) (by decide) (by decide)).2
      (Edit.inBounds_iff.mpr (by decide)) (by decide)

end Edited

end SigmaMethod
