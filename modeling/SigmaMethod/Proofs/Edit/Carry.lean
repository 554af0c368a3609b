import SigmaMethod.Edit.Edited
import SigmaMethod.Proofs.Edit.NewRows
import SigmaMethod.Proofs.Edit.Renumbering
import SigmaMethod.Proofs.Offsets.Canonical

/-!
# What an edited problem starts from

The lines of the old problem that are left carry over to their new numbers: the entries between them, the pairs between
them, and the old offsets as potentials. Nothing else is matched, so the record proves its own pairs optimal on every
edited matrix.
-/

namespace SigmaMethod

namespace Edited

variable {n dimension : Nat} {m : Signature n} {old : Analysis} {rows columns : Renumbering}
  {σ : Equiv.Perm (Fin n)} {c d : Fin n → Int} {p q : PartialMatching}

/-! ## Columns -/

structure ColumnsCarried (columns : Renumbering) (d : Fin n → Int) (done : List Nat) (p q : PartialMatching) :
    Prop where
  u : q.u = p.u
  columnOf : q.columnOf = p.columnOf
  rowOf : q.rowOf = p.rowOf
  size : q.v.size = p.v.size
  v : ∀ j : Fin n, j.val ∈ done → columns.Keeps j → q.v[columns.place j]? = some (-d j)

theorem carryColumns_spec (h : old.Records m σ c d) (hcolumns : columns.Regular) (hbound : columns.bound = n)
    (hsize : columns.place n ≤ p.v.size) :
    Yields (carryColumns old n columns p) (ColumnsCarried columns d (List.range n) p) := by
  unfold carryColumns
  refine Delivers.foldlM_done (I := fun done => ColumnsCarried columns d done p)
    ⟨rfl, rfl, rfl, rfl, fun j hj => (nomatch hj)⟩ ?_
  intro done j q hdone hq
  have hj : j < n := List.mem_range.mp (hdone.subset (by simp))
  rw [hcolumns.rename_eq j]
  by_cases hkeep : columns.Keeps j
  · have hplace : columns.place j < q.v.size := by
      have := hkeep.place_lt_bound
      rw [hbound] at this
      rw [hq.size]
      omega
    rw [if_pos hkeep]
    refine .bind (.ok rfl) fun k hk => ?_
    cases hk
    refine .bind (P := (· = d ⟨j, hj⟩)) ?_ fun y hy => ?_
    · rw [h.unknownOffsets]
      exact .lookAt (by simpa using hj) (by simp)
    subst hy
    refine .bind (.fit rfl) fun y hy => .bind (.writeAt hplace rfl) fun v hv => .pure ?_
    subst hy hv
    refine ⟨hq.u, hq.columnOf, hq.rowOf, by simpa using hq.size, fun k hk hkeep' => ?_⟩
    rw [Array.getElem?_set]
    rcases List.mem_append.mp hk with hk | hk
    · split
      · rename_i heq
        have := hkeep.eq_of_place hkeep' heq
        subst this
        rfl
      · exact hq.v k hk hkeep'
    · have hkj : k = ⟨j, hj⟩ := Fin.ext (List.mem_singleton.mp hk)
      rw [hkj, if_pos rfl]
  · rw [if_neg hkeep]
    refine .bind (.ok rfl) fun k hk => ?_
    cases hk
    refine .pure ⟨hq.u, hq.columnOf, hq.rowOf, hq.size, fun k hk hkeep' => ?_⟩
    rcases List.mem_append.mp hk with hk | hk
    · exact hq.v k hk hkeep'
    · rw [List.mem_singleton.mp hk] at hkeep'
      exact absurd hkeep' hkeep

/-! ## Rows -/

def carried (columns : Renumbering) (k : Nat) (es : List (Nat × Int)) : List (Nat × Nat × Int) :=
  (es.filter fun e => columns.Keeps e.1).map fun e => (k, columns.place e.1, e.2)

theorem mem_carried {es : List (Nat × Int)} {k r l : Nat} {x : Int} :
    (r, l, x) ∈ carried columns k es ↔ r = k ∧ ∃ j, (j, x) ∈ es ∧ columns.Keeps j ∧ columns.place j = l := by
  simp only [carried, List.mem_map, List.mem_filter, decide_eq_true_eq, Prod.mk.injEq]
  constructor
  · rintro ⟨⟨j, y⟩, ⟨hmem, hkeep⟩, rfl, hplace, rfl⟩
    exact ⟨rfl, j, hmem, hkeep, hplace⟩
  · rintro ⟨rfl, j, hmem, hkeep, hplace⟩
    exact ⟨(j, x), ⟨hmem, hkeep⟩, rfl, hplace, rfl⟩

theorem carryEntries_spec {i k : Nat} {t : Signature dimension} (hcolumns : columns.Regular)
    (hbound : columns.place columns.bound ≤ dimension) (hk : k < dimension) (hfresh : ∀ l, t.cost? k l = none) :
    Yields ((m.row i).foldlM (fun t (j, x) => do
      match ← columns.rename j with
      | none => return t
      | some l => (Signature.insert k l x).result t) t) fun t' => t.Adds t' (carried columns k (m.row i)) := by
  refine Delivers.foldlM_done (I := fun done (t' : Signature dimension) => t.Adds t' (carried columns k done))
    (.refl t) ?_
  rintro done ⟨j, x⟩ t' hdone ht'
  dsimp only
  rw [hcolumns.rename_eq j]
  by_cases hkeep : columns.Keeps j
  · rw [if_pos hkeep]
    refine .bind (.ok rfl) fun l hl => ?_
    cases hl
    have hplace := hkeep.place_lt_bound
    have hsnoc : carried columns k (done ++ [(j, x)]) = carried columns k done ++ [(k, columns.place j, x)] := by
      simp [carried, hkeep]
    refine (Signature.insert_spec t' k (columns.place j) x).mono (fun t'' hput => ?_) fun _ hout => hout ⟨hk, by omega⟩
    rw [hsnoc]
    refine ht'.insert (hfresh _) (fun y hy => ?_) hput
    -- an old row has one entry for each column
    obtain ⟨-, j', hmem, hkeep', hplace⟩ := mem_carried.mp hy
    have hj := hkeep'.eq_of_place hkeep hplace
    subst hj
    have h₁ := Signature.mem_row_iff_cost?.mp (hdone.subset (List.mem_append_left _ hmem))
    have h₂ := Signature.mem_row_iff_cost?.mp (hdone.subset (List.mem_append_right _ (List.mem_singleton_self (j', x))))
    exact Option.some.inj (h₁.symm.trans h₂)
  · rw [if_neg hkeep]
    refine .bind (.ok rfl) fun l hl => ?_
    cases hl
    have hsnoc : carried columns k (done ++ [(j, x)]) = carried columns k done := by
      simp [carried, hkeep]
    rw [hsnoc]
    exact .pure ht'

def PairAt (rows columns : Renumbering) (σ : Equiv.Perm (Fin n)) (done : List Nat) (k l : Nat) : Prop :=
  ∃ i : Fin n, i.val ∈ done ∧ rows.Keeps i ∧ columns.Keeps (σ i) ∧ rows.place i = k ∧ columns.place (σ i) = l

def EntryAt (rows columns : Renumbering) (m : Signature n) (done : List Nat) (k l : Nat) (x : Int) : Prop :=
  ∃ i : Fin n, i.val ∈ done ∧ rows.Keeps i ∧ (k, l, x) ∈ carried columns (rows.place i) (m.row i)

structure RowsCarried (rows columns : Renumbering) (m : Signature n) (σ : Equiv.Perm (Fin n)) (c : Fin n → Int)
    (done : List Nat) (v : Array Int) (t : Signature dimension) (p : PartialMatching) : Prop where
  v : p.v = v
  sizes : p.u.size = dimension ∧ p.columnOf.size = dimension ∧ p.rowOf.size = dimension
  u : ∀ i : Fin n, i.val ∈ done → rows.Keeps i → p.u[rows.place i]? = some (c i)
  columnOf : ∀ k l, p.columnOf[k]? = some (some l) ↔ PairAt rows columns σ done k l
  rowOf : ∀ k l, p.rowOf[l]? = some (some k) ↔ PairAt rows columns σ done k l
  entries : ∀ k l x, t.cost? k l = some x ↔ EntryAt rows columns m done k l x

theorem ColumnsCarried.start {done : List Nat} (h : ColumnsCarried columns d done (.empty dimension) p) :
    RowsCarried rows columns m σ c [] p.v (Signature.empty dimension) p := by
  refine ⟨rfl, ?_, fun i hi => (nomatch hi), fun k l => ?_, fun k l => ?_, fun k l x => ?_⟩
  · simp [h.u, h.columnOf, h.rowOf, PartialMatching.empty]
  · simp [h.columnOf, PartialMatching.empty, PairAt, Array.getElem?_replicate]
  · simp [h.rowOf, PartialMatching.empty, PairAt, Array.getElem?_replicate]
  · simp [EntryAt]

theorem RowsCarried.empty_below {done : List Nat} {v : Array Int} {t : Signature dimension} {k : Nat}
    (h : RowsCarried rows columns m σ c done v t p) (hk : rows.place rows.bound ≤ k) (l : Nat) :
    t.cost? k l = none := by
  refine Option.eq_none_iff_forall_ne_some.mpr fun x hx => ?_
  obtain ⟨i, -, hi, hmem⟩ := (h.entries _ _ _).mp hx
  obtain ⟨rfl, -⟩ := mem_carried.mp hmem
  have := hi.place_lt_bound
  omega

theorem exists_mem_snoc {done : List Nat} {i : Fin n} {good : Fin n → Prop} :
    (∃ k : Fin n, k.val ∈ done ++ [i.val] ∧ good k) ↔ (∃ k : Fin n, k.val ∈ done ∧ good k) ∨ good i := by
  constructor
  · rintro ⟨k, hmem, hk⟩
    rcases List.mem_append.mp hmem with hmem | hmem
    · exact .inl ⟨k, hmem, hk⟩
    · exact .inr (Fin.ext (List.mem_singleton.mp hmem) ▸ hk)
  · rintro (⟨k, hmem, hk⟩ | hi)
    · exact ⟨k, List.mem_append_left _ hmem, hk⟩
    · exact ⟨i, by simp, hi⟩

theorem pairAt_snoc {done : List Nat} {i : Fin n} {k l : Nat} :
    PairAt rows columns σ (done ++ [i.val]) k l ↔
      PairAt rows columns σ done k l ∨ rows.Keeps i ∧ columns.Keeps (σ i) ∧ rows.place i = k ∧
        columns.place (σ i) = l :=
  exists_mem_snoc

theorem entryAt_snoc {done : List Nat} {i : Fin n} {k l : Nat} {x : Int} :
    EntryAt rows columns m (done ++ [i.val]) k l x ↔
      EntryAt rows columns m done k l x ∨ rows.Keeps i ∧ (k, l, x) ∈ carried columns (rows.place i) (m.row i) :=
  exists_mem_snoc

theorem RowsCarried.skip {done : List Nat} {v : Array Int} {t : Signature dimension} {i : Fin n}
    (h : RowsCarried rows columns m σ c done v t p) (hi : ¬ rows.Keeps i) :
    RowsCarried rows columns m σ c (done ++ [i.val]) v t p where
  v := h.v
  sizes := h.sizes
  u k hk hkeep := by
    rcases List.mem_append.mp hk with hk | hk
    · exact h.u k hk hkeep
    · rw [List.mem_singleton.mp hk] at hkeep
      exact absurd hkeep hi
  columnOf k l := by rw [h.columnOf, pairAt_snoc, or_iff_left fun h => hi h.1]
  rowOf k l := by rw [h.rowOf, pairAt_snoc, or_iff_left fun h => hi h.1]
  entries k l x := by rw [h.entries, entryAt_snoc, or_iff_left fun h => hi h.1]

section row

variable {done : List Nat} {v : Array Int} {t t' : Signature dimension} {i : Fin n}

theorem place_ne (hnew : i.val ∉ done) (hkeep : rows.Keeps i) {i' : Fin n} (hi' : i'.val ∈ done)
    (hkeep' : rows.Keeps i') :
    rows.place i ≠ rows.place i' := by
  intro heq
  have := hkeep.eq_of_place hkeep' heq
  exact hnew (this ▸ hi')

theorem not_pairAt_row (hnew : i.val ∉ done) (hkeep : rows.Keeps i) (l : Nat) :
    ¬ PairAt rows columns σ done (rows.place i) l := by
  rintro ⟨i', hi', hkeep', -, hplace, -⟩
  exact place_ne hnew hkeep hi' hkeep' hplace.symm

theorem not_pairAt_column (hnew : i.val ∉ done) (hpartner : columns.Keeps (σ i)) (k : Nat) :
    ¬ PairAt rows columns σ done k (columns.place (σ i)) := by
  rintro ⟨i', hi', -, hpartner', -, hplace⟩
  have := σ.injective (Fin.ext (hpartner'.eq_of_place hpartner hplace))
  exact hnew (this ▸ hi')

theorem RowsCarried.fresh (h : RowsCarried rows columns m σ c done v t p) (hnew : i.val ∉ done) (hkeep : rows.Keeps i)
    (l : Nat) : t.cost? (rows.place i) l = none := by
  refine Option.eq_none_iff_forall_ne_some.mpr fun x hx => ?_
  obtain ⟨i', hi', hkeep', hmem⟩ := (h.entries _ _ _).mp hx
  exact place_ne hnew hkeep hi' hkeep' (mem_carried.mp hmem).1

theorem RowsCarried.u_snoc (h : RowsCarried rows columns m σ c done v t p) (hnew : i.val ∉ done) (hkeep : rows.Keeps i)
    (hu : rows.place i < p.u.size) (i' : Fin n) (hi' : i'.val ∈ done ++ [i.val]) (hkeep' : rows.Keeps i') :
    (p.u.set (rows.place i) (c i) hu)[rows.place i']? = some (c i') := by
  rw [Array.getElem?_set]
  rcases List.mem_append.mp hi' with hi' | hi'
  · rw [if_neg (place_ne hnew hkeep hi' hkeep')]
    exact h.u i' hi' hkeep'
  · rw [Fin.ext (List.mem_singleton.mp hi'), if_pos rfl]

theorem RowsCarried.entries_snoc (h : RowsCarried rows columns m σ c done v t p) (hkeep : rows.Keeps i)
    (ht' : t.Adds t' (carried columns (rows.place i) (m.row i))) (k l : Nat) (x : Int) :
    t'.cost? k l = some x ↔ EntryAt rows columns m (done ++ [i.val]) k l x := by
  rw [ht', h.entries, entryAt_snoc, and_iff_right hkeep]

theorem RowsCarried.unpaired (h : RowsCarried rows columns m σ c done v t p) (hnew : i.val ∉ done)
    (hkeep : rows.Keeps i)
    (hpartner : ¬ columns.Keeps (σ i)) (hu : rows.place i < p.u.size)
    (ht' : t.Adds t' (carried columns (rows.place i) (m.row i))) :
    RowsCarried rows columns m σ c (done ++ [i.val]) v t' { p with u := p.u.set (rows.place i) (c i) hu } where
  v := h.v
  sizes := by simpa only [Array.size_set] using h.sizes
  u := h.u_snoc hnew hkeep hu
  columnOf k l := by rw [h.columnOf, pairAt_snoc, or_iff_left fun h => hpartner h.2.1]
  rowOf k l := by rw [h.rowOf, pairAt_snoc, or_iff_left fun h => hpartner h.2.1]
  entries := h.entries_snoc hkeep ht'

theorem RowsCarried.paired (h : RowsCarried rows columns m σ c done v t p) (hnew : i.val ∉ done) (hkeep : rows.Keeps i)
    (hpartner : columns.Keeps (σ i)) (hu : rows.place i < p.u.size) (hcol : rows.place i < p.columnOf.size)
    (hrow : columns.place (σ i) < p.rowOf.size) (ht' : t.Adds t' (carried columns (rows.place i) (m.row i))) :
    RowsCarried rows columns m σ c (done ++ [i.val]) v t' { p with
      u := p.u.set (rows.place i) (c i) hu
      columnOf := p.columnOf.set (rows.place i) (some (columns.place (σ i))) hcol
      rowOf := p.rowOf.set (columns.place (σ i)) (some (rows.place i)) hrow } where
  v := h.v
  sizes := by simpa only [Array.size_set] using h.sizes
  u := h.u_snoc hnew hkeep hu
  columnOf k l := by
    dsimp only
    rw [Array.getElem?_set, pairAt_snoc, and_iff_right hkeep, and_iff_right hpartner]
    split
    · subst ‹rows.place i = k›
      rw [or_iff_right (not_pairAt_row hnew hkeep l)]
      simp
    · rename_i hkl
      rw [h.columnOf, or_iff_left fun h => hkl h.1]
  rowOf k l := by
    dsimp only
    rw [Array.getElem?_set, pairAt_snoc, and_iff_right hkeep, and_iff_right hpartner]
    split
    · subst ‹columns.place (σ i) = l›
      rw [or_iff_right (not_pairAt_column hnew hpartner k)]
      simp
    · rename_i hkl
      rw [h.rowOf, or_iff_left fun h => hkl h.2]
  entries := h.entries_snoc hkeep ht'

theorem carryRow_spec (hold : old.Records m σ c d) (hcolumns : columns.Regular)
    (hbound : rows.place rows.bound ≤ dimension)
    (hbound' : columns.place columns.bound ≤ dimension) (h : RowsCarried rows columns m σ c done v t p)
    (hnew : i.val ∉ done) (hkeep : rows.Keeps i) :
    Yields (carryRow m old columns i (rows.place i) t p) fun r =>
      RowsCarried rows columns m σ c (done ++ [i.val]) v r.1 r.2 := by
  obtain ⟨husize, hcolsize, hrowsize⟩ := h.sizes
  have hk : rows.place i < dimension := by
    have := hkeep.place_lt_bound
    omega
  have hu : rows.place i < p.u.size := by omega
  have hcol : rows.place i < p.columnOf.size := by omega
  unfold carryRow
  refine .bind (P := (· = c i)) ?_ fun y hy => ?_
  · rw [hold.equationOffsets]
    exact .lookAt (by simp) (by simp)
  subst hy
  refine .bind (.writeAt hu rfl) fun u hset => ?_
  refine (carryEntries_spec hcolumns hbound' hk (h.fresh hnew hkeep)).bind fun t' ht' => ?_
  refine .bind (P := (· = (σ i).val)) ?_ fun j hj => ?_
  · rw [hold.columnOf]
    exact .lookAt (by simp) (by simp)
  subst hj hset
  rw [hcolumns.rename_eq]
  by_cases hpartner : columns.Keeps (σ i)
  · rw [if_pos hpartner]
    refine .bind (.ok rfl) fun l hl => ?_
    cases hl
    have hrow : columns.place (σ i) < p.rowOf.size := by
      have := hpartner.place_lt_bound
      omega
    refine .bind (.writeAt hcol rfl) fun columnOf hset => .bind (.writeAt hrow rfl) fun rowOf hset' => .pure ?_
    subst hset hset'
    exact h.paired hnew hkeep hpartner hu hcol hrow ht'
  · rw [if_neg hpartner]
    refine .bind (.ok rfl) fun l hl => ?_
    cases hl
    exact .pure (h.unpaired hnew hkeep hpartner hu ht')

end row

theorem carryRows_spec {t : Signature dimension} (hold : old.Records m σ c d) (hrows : rows.Regular)
    (hcolumns : columns.Regular) (hbound : rows.place rows.bound ≤ dimension)
    (hbound' : columns.place columns.bound ≤ dimension)
    (h : RowsCarried rows columns m σ c [] p.v t p) :
    Yields (carryRows m old rows columns t p) fun r => RowsCarried rows columns m σ c (List.range n) p.v r.1 r.2 := by
  unfold carryRows
  refine Delivers.foldlM_done (I := fun done (r : Signature dimension × PartialMatching) =>
    RowsCarried rows columns m σ c done p.v r.1 r.2) h ?_
  rintro done i ⟨t, q⟩ hdone hq
  have hi : i < n := List.mem_range.mp (hdone.subset (by simp))
  have hnew : i ∉ done := by
    have hnodup := List.nodup_range.sublist hdone.sublist
    exact fun hmem => (List.nodup_append.mp hnodup).2.2 i hmem i (by simp) rfl
  dsimp only at hq ⊢
  rw [hrows.rename_eq]
  by_cases hkeep : rows.Keeps i
  · rw [if_pos hkeep]
    refine .bind (.ok rfl) fun k hk => ?_
    cases hk
    exact carryRow_spec (i := ⟨i, hi⟩) hold hcolumns hbound hbound' hq hnew hkeep
  · rw [if_neg hkeep]
    refine .bind (.ok rfl) fun k hk => ?_
    cases hk
    exact .pure (hq.skip (i := ⟨i, hi⟩) hkeep)

/-! ## The edited problem -/

structure Carried (m : Signature n) (σ : Equiv.Perm (Fin n)) (c d : Fin n → Int) (ed : Edited) : Prop where
  rows : ed.rows.Regular ∧ ed.rows.bound = n ∧ ed.rows.place n ≤ ed.dimension
  columns : ed.columns.Regular ∧ ed.columns.bound = n ∧ ed.columns.place n ≤ ed.dimension
  sizes : ∀ size ∈ [ed.start.u.size, ed.start.v.size, ed.start.columnOf.size, ed.start.rowOf.size], size = ed.dimension
  u : ∀ i : Fin n, ed.rows.Keeps i → ed.start.u[ed.rows.place i]? = some (c i)
  v : ∀ j : Fin n, ed.columns.Keeps j → ed.start.v[ed.columns.place j]? = some (-d j)
  columnOf : ∀ k l, ed.start.columnOf[k]? = some (some l) ↔ PairAt ed.rows ed.columns σ (List.range n) k l
  rowOf : ∀ k l, ed.start.rowOf[l]? = some (some k) ↔ PairAt ed.rows ed.columns σ (List.range n) k l
  entries : ∀ k l x, k < ed.rows.place n →
    (ed.matrix.cost? k l = some x ↔ EntryAt ed.rows ed.columns m (List.range n) k l x)

/-- What edit `e` leaves of the problem, in the edited problem. Its new equations are empty yet. -/
def remains (m : Signature n) (old : Analysis) (e : Edit) : Outcome Edited := do
  if old.dimension ≠ n then refuse (.dimensionMismatch n old.dimension)
  e.validate n
  let rows ← Renumbering.ofDeleted n e.deletedEquations
  let columns ← Renumbering.ofDeleted n e.deletedUnknowns
  let firstRow ← rows.surviving
  let _ ← columns.surviving
  let dimension := firstRow + e.newRows.size
  let p ← carryColumns old n columns (.empty dimension)
  let (t, p) ← carryRows m old rows columns (.empty dimension) p
  return ⟨dimension, t, p, rows, columns, e.newRows.size, e.newUnknowns⟩

def writeNew (ls : List Listing) (ed : Edited) : Outcome Edited := do
  let firstRow ← ed.rows.surviving
  let firstColumn ← ed.columns.surviving
  let t ← Listing.writeAll ed.columns firstRow firstColumn ls ed.matrix
  return { ed with matrix := t }

def ofEditListed (ls : List Listing) (m : Signature n) (old : Analysis) (e : Edit) : Outcome Edited :=
  remains m old e >>= writeNew ls

theorem ofEdit_eq (m : Signature n) (old : Analysis) (e : Edit) :
    ofEdit m old e = ofEditListed (e.newRows.toList.map NewRow.listing) m old e := by
  unfold ofEdit ofEditListed remains
  split
  · rfl
  simp only [bind_assoc]
  refine bind_congr fun _ => bind_congr fun rows => bind_congr fun columns => ?_
  cases hrows : rows.surviving with
  | error f => rfl
  | ok firstRow =>
    cases hcolumns : columns.surviving with
    | error f => rfl
    | ok firstColumn =>
      refine bind_congr (x := carryColumns old n columns _) fun p => bind_congr fun r => ?_
      rw [pure_bind, writeNew, hrows, hcolumns]
      change _ = Listing.writeAll columns firstRow firstColumn (e.newRows.toList.map NewRow.listing) r.1 >>= _
      rw [Listing.writeAll, List.zipIdx_map, List.foldlM_map]
      rfl

structure Remains (m : Signature n) (σ : Equiv.Perm (Fin n)) (c d : Fin n → Int) (e : Edit) (ed : Edited) : Prop
    extends Carried m σ c d ed where
  fits : e.Fits n
  deletedEquations : ed.rows.deleted = e.deletedEquations
  deletedUnknowns : ed.columns.deleted = e.deletedUnknowns
  counts : ed.newEquations = e.newRows.size ∧ ed.newUnknowns = e.newUnknowns
  height : ed.dimension = ed.rows.place n + e.newRows.size
  width : ed.dimension = ed.columns.place n + e.newUnknowns
  counted : ed.dimension < 18446744073709551616
  fresh : ∀ k l, ed.rows.place n ≤ k → ed.matrix.cost? k l = none

theorem remains_spec {e : Edit} (hold : old.Records m σ c d) (he : e.Sorted) :
    Delivers (remains m old e) (Remains m σ c d e) (fun _ => ¬ e.Fits n) := by
  have hdimension : ¬ old.dimension ≠ n := by
    rw [Analysis.dimension, hold.equationOffsets]
    simp
  unfold remains
  rw [if_neg hdimension]
  refine ((e.validate_spec n).mono (fun _ h => h) fun _ h => h.not_fits).bind fun _ ⟨hfits, hcounted⟩ => ?_
  unfold Edit.equationsLeft at hcounted
  refine (Renumbering.ofDeleted_spec he.equations hfits.equations).widen.bind
    fun rows ⟨hrows, hrowsBound, hrowsDeleted⟩ => ?_
  refine (Renumbering.ofDeleted_spec he.unknowns hfits.unknowns).widen.bind
    fun columns ⟨hcolumns, hcolumnsBound, hcolumnsDeleted⟩ => ?_
  have hrowsPlace := hrows.place_bound
  have hcolumnsPlace := hcolumns.place_bound
  rw [hrows.surviving_eq, hcolumns.surviving_eq]
  rw [hrowsBound, hrowsDeleted] at hrowsPlace
  rw [hcolumnsBound, hcolumnsDeleted] at hcolumnsPlace
  refine .bind (.ok rfl) fun firstRow hfirstRow => .bind (.ok rfl) fun firstColumn hfirstColumn => ?_
  subst hfirstRow hfirstColumn
  have hsquare := hfits.square
  rw [hrowsBound]
  have hrowsLe : rows.place n ≤ rows.place n + e.newRows.size := Nat.le_add_right ..
  have hcolumnsLe : columns.place n ≤ rows.place n + e.newRows.size := by omega
  refine (carryColumns_spec hold hcolumns hcolumnsBound (by simpa [PartialMatching.empty] using hcolumnsLe)).widen.bind
    fun p hp => ?_
  refine (carryRows_spec hold hrows hcolumns (hrowsBound ▸ hrowsLe) (hcolumnsBound ▸ hcolumnsLe) hp.start).widen.bind ?_
  rintro ⟨t, q⟩ hq
  refine .pure ?_
  have hv : q.v.size = rows.place n + e.newRows.size := by
    rw [hq.v, hp.size]
    simp [PartialMatching.empty]
  exact {
    rows := ⟨hrows, hrowsBound, hrowsLe⟩
    columns := ⟨hcolumns, hcolumnsBound, hcolumnsLe⟩
    sizes := by simp [hq.sizes, hv]
    u := fun i => hq.u i (List.mem_range.mpr i.isLt)
    v := fun j hj => by
      dsimp only
      rw [hq.v]
      exact hp.v j (List.mem_range.mpr j.isLt) hj
    columnOf := hq.columnOf
    rowOf := hq.rowOf
    entries := fun k l x _ => hq.entries k l x
    fits := hfits
    deletedEquations := hrowsDeleted
    deletedUnknowns := hcolumnsDeleted
    counts := ⟨rfl, rfl⟩
    height := rfl
    width := by dsimp only; omega
    counted := by dsimp only; omega
    fresh := fun k l hk => hq.empty_below (hrowsBound ▸ hk) l
  }

theorem Remains.room {e : Edit} {ed : Edited} (h : Remains m σ c d e ed) :
    e.Room n ed.columns (ed.rows.place n) (ed.columns.place n) ed.dimension where
  regular := h.columns.1
  bound := h.columns.2.1
  deleted := h.deletedUnknowns
  behind := rfl
  height := h.height
  width := h.width
  counted := h.counted

theorem exists_writeNew {e : Edit} {ed : Edited} (hrows : ed.rows.Regular) (hbound : ed.rows.bound = n)
    (h : e.Room n ed.columns (ed.rows.place n) (ed.columns.place n) ed.dimension) (hfits : e.Fits n) (he : e.Sound)
    (hfresh : ∀ k l, ed.rows.place n ≤ k → ed.matrix.cost? k l = none) {ls : List Listing} (hls : e.ListedBy ls) :
    ∃ t, writeNew ls ed = .ok { ed with matrix := t } ∧
      e.Written ed.columns (ed.rows.place n) (ed.columns.place n) ed.matrix t := by
  obtain ⟨t, ht, hwritten⟩ := h.exists_writeAll hfits he hls hfresh
  refine ⟨t, ?_, hwritten⟩
  unfold writeNew
  rw [hrows.surviving_eq, h.regular.surviving_eq, hbound, h.bound]
  change (Listing.writeAll _ _ _ _ _ >>= _) = _
  rw [ht]
  rfl

theorem Remains.exists_writeNew {e : Edit} {ed : Edited} (h : Remains m σ c d e ed) (he : e.Sound) {ls : List Listing}
    (hls : e.ListedBy ls) : ∃ t, writeNew ls ed = .ok { ed with matrix := t } ∧
      e.Written ed.columns (ed.rows.place n) (ed.columns.place n) ed.matrix t :=
  SigmaMethod.Edited.exists_writeNew h.rows.1 h.rows.2.1 h.room h.fits he h.fresh hls

theorem Carried.write {ed : Edited} {t : Signature ed.dimension} (h : Carried m σ c d ed)
    (ht : ∀ k l, k < ed.rows.place n → t.cost? k l = ed.matrix.cost? k l) :
    Carried m σ c d { ed with matrix := t } where
  rows := h.rows
  columns := h.columns
  sizes := h.sizes
  u := h.u
  v := h.v
  columnOf := h.columnOf
  rowOf := h.rowOf
  entries k l x hk := by rw [ht k l hk, h.entries k l x hk]

theorem ofEdit_spec {e : Edit} (hold : old.Records m σ c d) (he : e.Sorted) :
    Delivers (ofEdit m old e) (Carried m σ c d) (fun _ => True) := by
  rw [ofEdit_eq, ofEditListed]
  refine ((remains_spec hold he).mono (fun _ h => h) fun _ _ => trivial).bind fun ed hed => ?_
  unfold writeNew
  rw [hed.rows.1.surviving_eq, hed.columns.1.surviving_eq, hed.rows.2.1]
  refine .bind (.ok rfl) fun firstRow hfirstRow => .bind (P := fun _ => True) (.ok trivial) fun firstColumn _ => ?_
  subst hfirstRow
  exact (Listing.writeAll_spec hed.columns.1 _).bind fun t ht => .pure (hed.write ht)

variable {ed : Edited}

theorem Carried.place_row_lt (h : Carried m σ c d ed) {i : Fin n} (hi : ed.rows.Keeps i) :
    ed.rows.place i < ed.rows.place n := by
  have := hi.place_lt_bound
  rwa [h.rows.2.1] at this

theorem Carried.place_column_lt (h : Carried m σ c d ed) {j : Fin n} (hj : ed.columns.Keeps j) :
    ed.columns.place j < ed.columns.place n := by
  have := hj.place_lt_bound
  rwa [h.columns.2.1] at this

theorem Carried.cost?_place (h : Carried m σ c d ed) {i j : Fin n} (hi : ed.rows.Keeps i) (hj : ed.columns.Keeps j) :
    ed.matrix.cost? (ed.rows.place i) (ed.columns.place j) = m.get i j := by
  refine Option.ext fun x => ?_
  rw [h.entries _ _ _ (h.place_row_lt hi)]
  constructor
  · rintro ⟨i', -, hi', hmem⟩
    obtain ⟨hplace, j', hmem, hj', hplace'⟩ := mem_carried.mp hmem
    rw [hi'.eq_of_place hi hplace.symm, hj'.eq_of_place hj hplace', Signature.mem_row_iff_cost?, Signature.cost?_eq]
      at hmem
    exact hmem
  · intro hx
    have hmem := Signature.mem_row_iff_cost?.mpr ((m.cost?_eq i j).trans hx)
    exact ⟨i, List.mem_range.mpr i.isLt, hi, mem_carried.mpr ⟨rfl, j, hmem, hj, rfl⟩⟩

theorem Carried.valid (h : Carried m σ c d ed) (hσ : m.IsTransversal σ) : ed.start.Valid ed.matrix where
  sizes := h.sizes
  rows k _ l hkl := by
    rw [h.columnOf] at hkl
    refine ⟨?_, (h.rowOf k l).mpr hkl, ?_⟩
    · obtain ⟨i, -, -, hj, -, rfl⟩ := hkl
      exact Nat.lt_of_lt_of_le (h.place_column_lt hj) h.columns.2.2
    · obtain ⟨i, -, hi, hj, rfl, rfl⟩ := hkl
      rw [h.cost?_place hi hj]
      exact hσ i
  columns l _ k hlk := by
    rw [h.rowOf] at hlk
    refine ⟨?_, (h.columnOf k l).mpr hlk⟩
    obtain ⟨i, -, hi, -, rfl, -⟩ := hlk
    exact Nat.lt_of_lt_of_le (h.place_row_lt hi) h.rows.2.2

theorem Carried.proves (h : Carried m σ c d ed) (hcovers : m.Covers c d) (hσ : m.Tight c d σ) :
    ed.start.Proves ed.matrix where
  tight k l hkl := by
    rw [h.columnOf] at hkl
    obtain ⟨i, -, hi, hj, hk, hl⟩ := hkl
    have hu := h.u i hi
    have hv := h.v (σ i) hj
    have hx := h.cost?_place hi hj
    rw [hk] at hu hx
    rw [hl] at hv hx
    rw [← ed.matrix.cost?_eq, hx, hσ i, Array.getD_eq_getD_getElem?, Array.getD_eq_getD_getElem?, hu, hv]
    rfl
  feasible k l k' l' x hk hl hx := by
    rw [h.columnOf] at hk
    rw [h.rowOf] at hl
    obtain ⟨i, -, hi, -, hk, -⟩ := hk
    obtain ⟨i', -, -, hj, -, hl⟩ := hl
    have hu := h.u i hi
    have hv := h.v (σ i') hj
    have hplace := h.cost?_place hi hj
    rw [hk] at hu hplace
    rw [hl] at hv hplace
    rw [ed.matrix.cost?_eq, hx] at hplace
    have := hcovers.entries i (σ i') x hplace.symm
    rw [Array.getD_eq_getD_getElem?, Array.getD_eq_getD_getElem?, hu, hv]
    simp only [Option.getD_some]
    omega

end Edited

end SigmaMethod
