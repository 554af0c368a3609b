import SigmaMethod.Edit.Edited
import SigmaMethod.Proofs.Edit.Basic
import SigmaMethod.Proofs.Edit.Renumbering
import SigmaMethod.Proofs.Signature.Accepted

/-!
# New equations, written in any order

The derivative orders of a new equation are pairs without an order of their own, and a listing is one way to run through
them. Once columns are renumbered a listing is a list of incidences at different positions, in a row that was empty, so
all listings of one edit lead to the same entries.
-/

namespace SigmaMethod

open Signature (Functional Incident)

variable {n dimension : Nat}

/-! ## Listings -/

structure Listing where
  existing : List (Nat × Int)
  added : List (Nat × Int)

/-- By increasing unknown. -/
def NewRow.listing (r : NewRow) : Listing := ⟨r.existing.entries, r.added.entries⟩

namespace Listing

structure Lists (r : NewRow) (l : Listing) : Prop where
  existing : l.existing.Perm r.existing.entries
  added : l.added.Perm r.added.entries

theorem lists_listing (r : NewRow) : Lists r r.listing := ⟨.refl _, .refl _⟩

variable {r : NewRow} {l : Listing} {columns : Renumbering} {firstColumn k : Nat} {x : Int}

theorem Lists.mem_existing (h : Lists r l) {j : Nat} : (j, x) ∈ l.existing ↔ r.existing.find? j = some x := by
  rw [h.existing.mem_iff, SortedMap.find?_eq_some_iff]

theorem Lists.mem_added (h : Lists r l) {y : Nat} : (y, x) ∈ l.added ↔ r.added.find? y = some x := by
  rw [h.added.mem_iff, SortedMap.find?_eq_some_iff]

def incidences (columns : Renumbering) (firstColumn k : Nat) (l : Listing) : List Incidence :=
  l.existing.map (fun (j, x) => ⟨k, columns.place j, x⟩) ++ l.added.map fun (y, x) => ⟨k, firstColumn + y, x⟩

def write (columns : Renumbering) (firstColumn k : Nat) (l : Listing) (t : Signature dimension) :
    Outcome (Signature dimension) := do
  let t ← l.existing.foldlM (fun t (j, derivative) => do
    match ← columns.rename j with
    | none => refuse (.invalidEdit (.notSurviving j))
    | some l => (Signature.setDerivative k l derivative).result t) t
  l.added.foldlM (fun t (x, derivative) => do
    let l ← fitIndex (firstColumn + x)
    (Signature.setDerivative k l derivative).result t) t

theorem write_eq (hexisting : ∀ j x, (j, x) ∈ l.existing → columns.Keeps j)
    (hadded : ∀ y x, (y, x) ∈ l.added → firstColumn + y < 18446744073709551616) (hcolumns : columns.Regular)
    (t : Signature dimension) :
    l.write columns firstColumn k t = (Signature.extend (l.incidences columns firstColumn k)).result t := by
  unfold write incidences
  rw [Signature.result_extend, List.foldlM_append, List.foldlM_map]
  simp only [List.foldlM_map]
  congr 1
  · refine foldlM_congr fun e he t => ?_
    rw [hcolumns.rename_eq, if_pos (hexisting e.1 e.2 he)]
    rfl
  · refine funext fun t => foldlM_congr fun e he t => ?_
    rw [fitIndex, if_pos (hadded e.1 e.2 he)]
    rfl

theorem write_spec (hcolumns : columns.Regular) (t : Signature dimension) :
    Delivers (l.write columns firstColumn k t) (fun t' => ∀ i j, i ≠ k → t'.cost? i j = t.cost? i j)
      (fun _ => True) := by
  have hset : ∀ {t' : Signature dimension} {j : Nat} {x : Int}, (∀ i j, i ≠ k → t'.cost? i j = t.cost? i j) →
      Delivers ((Signature.setDerivative k j x).result t') (fun t'' => ∀ i j, i ≠ k → t''.cost? i j = t.cost? i j)
        (fun _ => True) := by
    intro t' j x ht'
    refine (Signature.setDerivative_spec t' k j x).imp fun t'' hput i j' hi => ?_
    rw [hput, if_neg (fun h => hi h.1), ht' i j' hi]
  unfold write
  refine Delivers.bind (P := fun t' : Signature dimension => ∀ i j, i ≠ k → t'.cost? i j = t.cost? i j) ?_
    fun t' ht' => ?_
  · refine Delivers.foldlM (I := fun t' : Signature dimension => ∀ i j, i ≠ k → t'.cost? i j = t.cost? i j)
      (fun _ _ _ => rfl) ?_
    rintro ⟨j, x⟩ - t' ht'
    dsimp only
    rw [hcolumns.rename_eq]
    refine .bind (P := fun _ => True) (.ok trivial) fun _ _ => ?_
    split
    · exact .refuse trivial
    · exact hset ht'
  · refine Delivers.foldlM (I := fun t' : Signature dimension => ∀ i j, i ≠ k → t'.cost? i j = t.cost? i j) ht' ?_
    rintro ⟨j, x⟩ - t' ht'
    exact .bind (P := fun _ => True) (.fitIndex trivial) fun _ _ => hset ht'

theorem mem_incidences (h : Lists r l) {i : Incidence} : i ∈ l.incidences columns firstColumn k ↔ i.equation = k ∧
    ((∃ j, r.existing.find? j = some i.derivative ∧ i.unknown = columns.place j) ∨
      ∃ y, r.added.find? y = some i.derivative ∧ i.unknown = firstColumn + y) := by
  obtain ⟨equation, unknown, derivative⟩ := i
  simp only [incidences, List.mem_append, List.mem_map, Prod.exists, h.mem_existing, h.mem_added, Incidence.mk.injEq]
  constructor
  · rintro (⟨j, x, hx, rfl, rfl, rfl⟩ | ⟨y, x, hx, rfl, rfl, rfl⟩)
    · exact ⟨rfl, .inl ⟨j, hx, rfl⟩⟩
    · exact ⟨rfl, .inr ⟨y, hx, rfl⟩⟩
  · rintro ⟨rfl, ⟨j, hx, rfl⟩ | ⟨y, hx, rfl⟩⟩
    · exact .inl ⟨j, derivative, hx, rfl, rfl, rfl⟩
    · exact .inr ⟨y, derivative, hx, rfl, rfl, rfl⟩

def writeAll (columns : Renumbering) (firstRow firstColumn : Nat) (ls : List Listing) (t : Signature dimension) :
    Outcome (Signature dimension) :=
  ls.zipIdx.foldlM (fun t (l, k) => l.write columns firstColumn (firstRow + k) t) t

theorem writeAll_spec {firstRow : Nat} {ls : List Listing} (hcolumns : columns.Regular) (t : Signature dimension) :
    Delivers (writeAll columns firstRow firstColumn ls t) (fun t' => ∀ k l, k < firstRow → t'.cost? k l = t.cost? k l)
      (fun _ => True) := by
  refine Delivers.foldlM (I := fun t' : Signature dimension => ∀ k l, k < firstRow → t'.cost? k l = t.cost? k l)
    (fun _ _ _ => rfl) ?_
  rintro ⟨l, k⟩ - t' ht'
  refine (write_spec hcolumns t').imp fun t'' hput i j hi => ?_
  rw [hput i j (by omega), ht' i j hi]

def allIncidences (columns : Renumbering) (firstRow firstColumn : Nat) (ls : List Listing) : List Incidence :=
  ls.zipIdx.flatMap fun (l, k) => l.incidences columns firstColumn (firstRow + k)

theorem writeAll_eq {firstRow : Nat} {ls : List Listing}
    (hexisting : ∀ l ∈ ls, ∀ j x, (j, x) ∈ l.existing → columns.Keeps j)
    (hadded : ∀ l ∈ ls, ∀ y x, (y, x) ∈ l.added → firstColumn + y < 18446744073709551616) (hcolumns : columns.Regular)
    (t : Signature dimension) :
    writeAll columns firstRow firstColumn ls t =
      (Signature.extend (allIncidences columns firstRow firstColumn ls)).result t := by
  unfold writeAll allIncidences
  have hls : ∀ x ∈ ls.zipIdx, x.1 ∈ ls := fun x hx => List.fst_mem_of_mem_zipIdx hx
  generalize ls.zipIdx = pairs at hls
  induction pairs generalizing t with
  | nil => rfl
  | cons x pairs ih =>
    obtain ⟨l, k⟩ := x
    obtain ⟨hl, hpairs⟩ := List.forall_mem_cons.mp hls
    rw [List.foldlM_cons, List.flatMap_cons]
    dsimp only
    rw [write_eq (hexisting l hl) (hadded l hl) hcolumns, Signature.result_extend, Signature.result_extend,
      List.foldlM_append]
    refine congrArg _ (funext fun t => ?_)
    rw [ih t hpairs, Signature.result_extend]

end Listing

/-! ## All new equations of an edit -/

namespace Edit

variable {e : Edit} {ls : List Listing} {columns : Renumbering} {firstRow firstColumn k l : Nat} {i i' : Incidence}

abbrev ListedBy (e : Edit) (ls : List Listing) : Prop := List.Forall₂ Listing.Lists e.newRows.toList ls

theorem listedBy_listing (e : Edit) : e.ListedBy (e.newRows.toList.map NewRow.listing) := by
  rw [ListedBy, List.forall₂_map_right_iff, List.forall₂_same]
  exact fun r _ => Listing.lists_listing r

theorem ListedBy.getElem? (h : e.ListedBy ls) (k : Nat) :
    (∀ r, e.newRows[k]? = some r → ∃ l, ls[k]? = some l ∧ Listing.Lists r l) ∧
      ∀ l, ls[k]? = some l → ∃ r, e.newRows[k]? = some r ∧ Listing.Lists r l := by
  have hlength : e.newRows.size = ls.length := by simpa using h.length_eq
  have hget : ∀ (hk : k < e.newRows.size) (hk' : k < ls.length), Listing.Lists e.newRows[k] ls[k] := by
    intro hk hk'
    simpa using List.Forall₂.get h (by simpa using hk) hk'
  constructor
  · intro r hr
    obtain ⟨hk, rfl⟩ := Array.getElem?_eq_some_iff.mp hr
    exact ⟨_, List.getElem?_eq_getElem (hlength ▸ hk), hget hk _⟩
  · intro l hl
    obtain ⟨hk, rfl⟩ := List.getElem?_eq_some_iff.mp hl
    exact ⟨_, Array.getElem?_eq_getElem (hlength ▸ hk), hget _ hk⟩

def Sets (e : Edit) (columns : Renumbering) (firstRow firstColumn : Nat) (i : Incidence) : Prop :=
  ∃ k r, e.newRows[k]? = some r ∧ i.equation = firstRow + k ∧
    ((∃ j, r.existing.find? j = some i.derivative ∧ i.unknown = columns.place j) ∨
      ∃ y, r.added.find? y = some i.derivative ∧ i.unknown = firstColumn + y)

def Written (e : Edit) (columns : Renumbering) (firstRow firstColumn : Nat) (t t' : Signature dimension) : Prop :=
  ∀ k l x, t'.cost? k l = some x ↔ t.cost? k l = some x ∨ e.Sets columns firstRow firstColumn ⟨k, l, -x⟩

theorem mem_allIncidences (h : e.ListedBy ls) :
    i ∈ Listing.allIncidences columns firstRow firstColumn ls ↔ e.Sets columns firstRow firstColumn i := by
  simp only [Listing.allIncidences, List.mem_flatMap, Prod.exists, List.mem_zipIdx_iff_getElem?, Sets]
  rw [exists_comm]
  refine exists_congr fun k => ?_
  have hget := h.getElem? k
  constructor
  · rintro ⟨l, hl, hi⟩
    obtain ⟨r, hr, hrl⟩ := hget.2 l hl
    exact ⟨r, hr, (Listing.mem_incidences hrl).mp hi⟩
  · rintro ⟨r, hr, hi⟩
    obtain ⟨l, hl, hrl⟩ := hget.1 r hr
    exact ⟨l, hl, (Listing.mem_incidences hrl).mpr hi⟩

theorem mem_newRows {r : NewRow} (hr : e.newRows[k]? = some r) : r ∈ e.newRows.toList :=
  Array.mem_toList_iff.mpr (Array.mem_of_getElem? hr)

structure Room (e : Edit) (n : Nat) (columns : Renumbering) (firstRow firstColumn dimension : Nat) : Prop where
  regular : columns.Regular
  bound : columns.bound = n
  deleted : columns.deleted = e.deletedUnknowns
  behind : firstColumn = columns.place n
  height : dimension = firstRow + e.newRows.size
  width : dimension = firstColumn + e.newUnknowns
  counted : dimension < 18446744073709551616

section room

variable (h : e.Room n columns firstRow firstColumn dimension) (hfits : e.Fits n) (hsound : e.Sound)

include h hfits in
theorem Room.keeps {r : NewRow} (hr : e.newRows[k]? = some r) {j : Nat} {x : Int} (hx : r.existing.find? j = some x) :
    columns.Keeps j ∧ columns.place j < firstColumn := by
  have hkey : j ∈ r.existing.keys := List.mem_map_of_mem (SortedMap.find?_eq_some_iff.mp hx)
  obtain ⟨hj, hleft⟩ := hfits.references r (mem_newRows hr) j hkey
  have hkeeps : columns.Keeps j := ⟨h.bound ▸ hj, h.deleted ▸ hleft⟩
  refine ⟨hkeeps, ?_⟩
  rw [h.behind, ← h.bound]
  exact hkeeps.place_lt_bound

include h hfits hsound in
theorem Room.incident (hi : e.Sets columns firstRow firstColumn i) :
    Incident dimension i.equation i.unknown i.derivative := by
  obtain ⟨k, r, hr, hequation, hunknown⟩ := hi
  have hk := (Array.getElem?_eq_some_iff.mp hr).1
  have hrow : RowSound e.newUnknowns r := hsound r (mem_newRows hr)
  have hheight := h.height
  have hwidth := h.width
  rcases hunknown with ⟨j, hx, hunknown⟩ | ⟨y, hx, hunknown⟩
  · have := (h.keeps hfits hr hx).2
    obtain ⟨h₀, hrange⟩ := hrow.existing j _ hx
    exact ⟨by omega, by omega, h₀, hrange⟩
  · obtain ⟨hy, h₀, hrange⟩ := hrow.added y _ hx
    exact ⟨by omega, by omega, h₀, hrange⟩

theorem not_sets_above {derivative : Int} (hk : k < firstRow) :
    ¬ e.Sets columns firstRow firstColumn ⟨k, l, derivative⟩ := by
  rintro ⟨k', r, -, hequation, -⟩
  dsimp only at hequation
  omega

include h hfits in
theorem Room.sets_existing {r : NewRow} (hr : e.newRows[k]? = some r) {j : Nat} (hj : columns.Keeps j) {x : Int} :
    e.Sets columns firstRow firstColumn ⟨firstRow + k, columns.place j, x⟩ ↔ r.existing.find? j = some x := by
  constructor
  · rintro ⟨k', r', hr', hequation, hunknown⟩
    dsimp only at hequation hunknown
    obtain rfl : k = k' := by omega
    obtain rfl : r = r' := Option.some.inj (hr.symm.trans hr')
    have hplace : columns.place j < firstColumn := by
      rw [h.behind, ← h.bound]
      exact hj.place_lt_bound
    rcases hunknown with ⟨j', hx, hj'⟩ | ⟨y, -, hy⟩
    · rwa [hj.eq_of_place (h.keeps hfits hr hx).1 hj']
    · omega
  · exact fun hx => ⟨k, r, hr, rfl, .inl ⟨j, hx, rfl⟩⟩

include h hfits in
theorem Room.sets_added {r : NewRow} (hr : e.newRows[k]? = some r) {y : Nat} {x : Int} :
    e.Sets columns firstRow firstColumn ⟨firstRow + k, firstColumn + y, x⟩ ↔ r.added.find? y = some x := by
  constructor
  · rintro ⟨k', r', hr', hequation, hunknown⟩
    dsimp only at hequation hunknown
    obtain rfl : k = k' := by omega
    obtain rfl : r = r' := Option.some.inj (hr.symm.trans hr')
    rcases hunknown with ⟨j, hx, hj⟩ | ⟨y', hx, hy⟩
    · have := (h.keeps hfits hr hx).2
      omega
    · obtain rfl : y = y' := by omega
      exact hx
  · exact fun hx => ⟨k, r, hr, rfl, .inr ⟨y, hx, rfl⟩⟩

include h hfits in
theorem Room.derivative_eq (hi : e.Sets columns firstRow firstColumn i) (hi' : e.Sets columns firstRow firstColumn i')
    (hrow : i.equation = i'.equation) (hcolumn : i.unknown = i'.unknown) : i.derivative = i'.derivative := by
  obtain ⟨k, r, hr, hequation, hunknown⟩ := hi
  obtain ⟨row, column, derivative⟩ := i'
  dsimp only at hrow hcolumn ⊢
  rw [← hrow, ← hcolumn, hequation] at hi'
  rcases hunknown with ⟨j, hx, hj⟩ | ⟨y, hx, hy⟩
  · rw [hj, h.sets_existing hfits hr (h.keeps hfits hr hx).1] at hi'
    exact Option.some.inj (hx.symm.trans hi')
  · rw [hy, h.sets_added hfits hr] at hi'
    exact Option.some.inj (hx.symm.trans hi')

include h hfits hsound in
/-- **New equations are written whatever their order, and no entry depends on it.** -/
theorem Room.exists_writeAll (hls : e.ListedBy ls) {t : Signature dimension}
    (hfresh : ∀ k l, firstRow ≤ k → t.cost? k l = none) :
    ∃ t', Listing.writeAll columns firstRow firstColumn ls t = .ok t' ∧
      e.Written columns firstRow firstColumn t t' := by
  have hmem : ∀ i, i ∈ Listing.allIncidences columns firstRow firstColumn ls ↔ e.Sets columns firstRow firstColumn i :=
    fun i => mem_allIncidences hls
  have hrow : ∀ l ∈ ls, ∃ (k : Nat) (r : NewRow), e.newRows[k]? = some r ∧ Listing.Lists r l := by
    intro l hl
    obtain ⟨k, hk⟩ := List.mem_iff_getElem?.mp hl
    obtain ⟨r, hr, hrl⟩ := (hls.getElem? k).2 l hk
    exact ⟨k, r, hr, hrl⟩
  have hexisting : ∀ l ∈ ls, ∀ j x, (j, x) ∈ l.existing → columns.Keeps j := by
    intro l hl j x hx
    obtain ⟨k, r, hr, hrl⟩ := hrow l hl
    exact (h.keeps hfits hr (hrl.mem_existing.mp hx)).1
  have hadded : ∀ l ∈ ls, ∀ y x, (y, x) ∈ l.added → firstColumn + y < 18446744073709551616 := by
    intro l hl y x hx
    obtain ⟨k, r, hr, hrl⟩ := hrow l hl
    have hy := ((hsound r (mem_newRows hr)).added y x (hrl.mem_added.mp hx)).1
    have := h.width
    have := h.counted
    omega
  have hfun : Functional ((Listing.allIncidences columns firstRow firstColumn ls).map Incidence.entry) := by
    intro k l x y hx hy
    have hi := (hmem _).mp (Incidence.mem_map_entry.mp hx)
    have hi' := (hmem _).mp (Incidence.mem_map_entry.mp hy)
    exact Int.neg_inj.mp (h.derivative_eq hfits hi hi' rfl rfl)
  have hempty : ∀ i ∈ Listing.allIncidences columns firstRow firstColumn ls, t.cost? i.equation i.unknown = none := by
    intro i hi
    obtain ⟨k, r, -, hequation, -⟩ := (hmem i).mp hi
    exact hfresh _ _ (by omega)
  rw [Listing.writeAll_eq hexisting hadded h.regular]
  obtain ⟨t', ht', hadds⟩ := Signature.exists_extend (fun i hi => h.incident hfits hsound ((hmem i).mp hi)) hfun hempty
  refine ⟨t', ht', fun k l x => (hadds k l x).trans (or_congr_right ?_)⟩
  rw [← hmem]
  exact Incidence.mem_map_entry

end room

end Edit

end SigmaMethod
