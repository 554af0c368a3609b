import SigmaMethod.Proofs.Component.Surrogate

/-!
# Problems with their components written out

The rows of the outer problem that are no surrogates, and below them the equations of each component over its own
private columns. Picks that use all columns leave each component one public column, its exit, so they cost no less than
the transversal of the outer problem that takes these exits; and a transversal of the outer problem is written out at
its own cost.
-/

namespace SigmaMethod

variable {n first : Nat} {ps : Placements} {p : Placement} {outer : Signature n}

namespace Placement

def rowAt (p : Placement) (first e : Nat) : CostRow := fun l =>
  if first ≤ l ∧ l < first + p.component.privates then costIn p.component.entries e (l - first)
  else if p.firstPublic ≤ l ∧ l < p.firstPublic + p.component.publics then
    costIn p.component.entries e (p.component.privates + (l - p.firstPublic))
  else none

def rowsAt (p : Placement) (first : Nat) : List CostRow := (List.range p.component.equations).map (p.rowAt first)

def Fits (p : Placement) (n : Nat) : Prop := p.component.Exact ∧ p.firstPublic + p.component.publics ≤ n

end Placement

/-! ## Columns of a component -/

namespace Placement

def ownColumn (p : Placement) (first l : Nat) : Nat :=
  if first ≤ l then l - first else p.component.privates + (l - p.firstPublic)

def wholeColumn (p : Placement) (first j : Nat) : Nat :=
  if j < p.component.privates then first + j else p.firstPublic + (j - p.component.privates)

def solution (p : Placement) (j : Nat) : List Nat := (p.component.matchings[j - p.firstPublic]?.join).getD []

def columns (p : Placement) (first j : Nat) : List Nat := (p.solution j).map (p.wholeColumn first)

theorem lt_of_rowAt {e l : Nat} {x : Int} (h : p.Fits n) (hx : p.rowAt first e l = some x) :
    first ≤ l ∧ l < first + p.component.privates ∨
      l < n ∧ p.firstPublic ≤ l ∧ l < p.firstPublic + p.component.publics := by
  unfold rowAt at hx
  split at hx
  · exact .inl ‹_›
  · split at hx
    · have := h.2
      exact .inr ⟨by omega, ‹_›⟩
    · cases hx

theorem rowAt_eq_ownColumn {e l : Nat} {x : Int} (h : p.Fits n) (hfirst : n ≤ first) (hx : p.rowAt first e l = some x) :
    costIn p.component.entries e (p.ownColumn first l) = some x := by
  have hl := lt_of_rowAt h hx
  unfold rowAt at hx
  unfold ownColumn
  split at hx
  · rw [if_pos (by omega)]
    exact hx
  · rw [if_neg (by omega)]
    split at hx
    · exact hx
    · cases hx

theorem wholeColumn_ownColumn {l : Nat} (hfirst : n ≤ first)
    (hl : first ≤ l ∧ l < first + p.component.privates ∨
      l < n ∧ p.firstPublic ≤ l ∧ l < p.firstPublic + p.component.publics) :
    p.wholeColumn first (p.ownColumn first l) = l := by
  unfold wholeColumn ownColumn
  split <;> split <;> omega

theorem rowAt_wholeColumn {e j : Nat} (h : p.Fits n) (hfirst : n ≤ first)
    (hj : j < p.component.privates + p.component.publics) :
    p.rowAt first e (p.wholeColumn first j) = costIn p.component.entries e j := by
  have := h.2
  unfold rowAt wholeColumn
  split
  · rw [if_pos (by omega), Nat.add_sub_cancel_left]
  · rw [if_neg (by omega), if_pos (by omega)]
    congr 1
    omega

theorem wholeColumn_injective {j k : Nat} (h : p.Fits n) (hfirst : n ≤ first)
    (hj : j < p.component.privates + p.component.publics) (hk : k < p.component.privates + p.component.publics)
    (heq : p.wholeColumn first j = p.wholeColumn first k) : j = k := by
  have := h.2
  unfold wholeColumn at heq
  split at heq <;> split at heq <;> omega

theorem rowAt_eq_some_iff {e l : Nat} {x : Int} (h : p.Fits n) (hfirst : n ≤ first) :
    p.rowAt first e l = some x ↔ ∃ j, (e, j, x) ∈ p.component.entries ∧ p.wholeColumn first j = l := by
  constructor
  · intro hx
    have hown := rowAt_eq_ownColumn h hfirst hx
    exact ⟨_, (costIn_eq_some_iff h.1.functional).mp hown, wholeColumn_ownColumn hfirst (lt_of_rowAt h hx)⟩
  · rintro ⟨j, hj, rfl⟩
    rw [rowAt_wholeColumn h hfirst (h.1.inRange e j x hj).2]
    exact (costIn_eq_some_iff h.1.functional).mpr hj

end Placement

/-! ## Picks for one component -/

theorem exists_perm_cons_range' {l : List Nat} {s k : Nat} (hlength : l.length = k + 1)
    (hsub : ∀ i, s ≤ i → i < s + k → i ∈ l) : ∃ j, l.Perm (j :: List.range' s k) := by
  have hsubset : List.range' s k ⊆ l := fun i hi => hsub i (List.mem_range'_1.mp hi).1 (List.mem_range'_1.mp hi).2
  obtain ⟨j, hj⟩ := (List.subperm_of_subset List.nodup_range' hsubset).exists_of_length_lt (by simp [hlength])
  exact ⟨j, (hj.perm_of_length_le (by simp [hlength])).symm⟩

namespace Placement

theorem map_ownColumn_range' : (List.range' first p.component.privates).map (p.ownColumn first) =
    List.range p.component.privates := by
  rw [List.range'_eq_map_range, List.map_map]
  refine (List.map_congr_left fun i _ => ?_).trans (List.map_id' _)
  simp [ownColumn]

theorem map_wholeColumn_range : (List.range p.component.privates).map (p.wholeColumn first) =
    List.range' first p.component.privates := by
  rw [List.range'_eq_map_range]
  exact List.map_congr_left fun i hi => if_pos (List.mem_range.mp hi)

theorem exitPicks_own {picks : List (Nat × Int)} {j : Nat} (h : p.Fits n) (hfirst : n ≤ first)
    (hpicks : Picks (p.rowsAt first) picks) (hj : j < first)
    (hperm : (picks.map Prod.fst).Perm (j :: List.range' first p.component.privates)) :
    ExitPicks p.component.rows p.component.privates (j - p.firstPublic)
      (picks.map fun pick => (p.ownColumn first pick.1, pick.2)) := by
  constructor
  · unfold Picks rowsAt at hpicks
    unfold Picks Component.rows
    rw [List.forall₂_map_left_iff] at hpicks ⊢
    rw [List.forall₂_map_right_iff]
    exact hpicks.imp fun e pick hx => rowAt_eq_ownColumn h hfirst hx
  · have hmap : (picks.map fun pick => (p.ownColumn first pick.1, pick.2)).map Prod.fst =
        (picks.map Prod.fst).map (p.ownColumn first) := by simp
    have hj : p.ownColumn first j = p.component.privates + (j - p.firstPublic) := if_neg (by omega)
    have hown := hperm.map (p.ownColumn first)
    rwa [List.map_cons, hj, map_ownColumn_range', ← hmap] at hown

theorem picks_whole {own : List (Nat × Int)} (h : p.Fits n) (hfirst : n ≤ first) (hown : Picks p.component.rows own) :
    Picks (p.rowsAt first) (own.map fun pick => (p.wholeColumn first pick.1, pick.2)) := by
  unfold Picks Component.rows at hown
  unfold Picks rowsAt
  rw [List.forall₂_map_left_iff] at hown ⊢
  rw [List.forall₂_map_right_iff]
  refine hown.imp fun e pick hpick => ?_
  have := h.1.inRange e pick.1 pick.2 ((costIn_eq_some_iff h.1.functional).mp hpick)
  exact (rowAt_wholeColumn h hfirst this.2).trans hpick

/-- Picks for a component that use its private columns use one public column more, and cost at least what the surrogate
row has there. -/
theorem exists_exit {picks : List (Nat × Int)} (h : p.Fits n) (hfirst : n ≤ first)
    (hpicks : Picks (p.rowsAt first) picks)
    (hnodup : (picks.map Prod.fst).Nodup)
    (hall : ∀ l, first ≤ l → l < first + p.component.privates → l ∈ picks.map Prod.fst) :
    ∃ j x, p.surrogateRow j = some x ∧ (picks.map Prod.fst).Perm (j :: List.range' first p.component.privates) ∧
      x ≤ (picks.map Prod.snd).sum := by
  have hlength : (picks.map Prod.fst).length = p.component.privates + 1 := by
    rw [List.length_map, ← hpicks.length_eq]
    simp [rowsAt, Component.equations]
  obtain ⟨j, hperm⟩ := exists_perm_cons_range' hlength hall
  have hpublic : p.firstPublic ≤ j ∧ j < p.firstPublic + p.component.publics := by
    obtain ⟨pick, hmem, rfl⟩ := List.mem_map.mp (hperm.mem_iff.mpr List.mem_cons_self)
    obtain ⟨row, hrow, hx⟩ := hpicks.exists_row hmem
    obtain ⟨e, -, rfl⟩ := List.mem_map.mp hrow
    have hnew := (List.nodup_cons.mp (hperm.nodup_iff.mp hnodup)).1
    rw [List.mem_range'_1] at hnew
    have := lt_of_rowAt h hx
    omega
  have hlt : j < first := by
    have := h.2
    omega
  have hown := exitPicks_own h hfirst hpicks hlt hperm
  obtain ⟨solved, -, hcost, hsolved⟩ := h.1.exits (j - p.firstPublic) (by omega)
  cases solved with
  | none => exact absurd hown (hsolved _)
  | some solved =>
    obtain ⟨-, -, -, -, hleast⟩ := hsolved
    refine ⟨j, solved.2, ?_, hperm, ?_⟩
    · unfold surrogateRow
      rw [if_pos hpublic, hcost]
      rfl
    · have := hleast _ hown
      simpa [Function.comp_def] using this

theorem exists_solution {j : Nat} {x : Int} (h : p.Fits n) (hfirst : n ≤ first) (hx : p.surrogateRow j = some x) :
    p.component.matchings[j - p.firstPublic]? = some (some (p.solution j)) ∧
      (p.columns first j).Perm (j :: List.range' first p.component.privates) ∧
      ∃ picks, Picks (p.rowsAt first) picks ∧ picks.map Prod.fst = p.columns first j ∧
        (picks.map Prod.snd).sum = x := by
  unfold surrogateRow at hx
  split at hx
  case isFalse => cases hx
  rename_i hpublic
  obtain ⟨solved, hmatching, hcost, hsolved⟩ := h.1.exits (j - p.firstPublic) (by omega)
  rw [hcost] at hx
  cases solved with
  | none => cases hx
  | some solved =>
    obtain ⟨own, hown, hcolumns, hsum, -⟩ := hsolved
    have hsolution : p.solution j = own.map Prod.fst := by
      unfold solution
      rw [hmatching, ← hcolumns]
      rfl
    refine ⟨by rw [hmatching, hsolution, ← hcolumns]; rfl, ?_,
      own.map fun pick => (p.wholeColumn first pick.1, pick.2), picks_whole h hfirst hown.solved, ?_, ?_⟩
    · have hj : p.wholeColumn first (p.component.privates + (j - p.firstPublic)) = j := by
        unfold wholeColumn
        rw [if_neg (by omega)]
        omega
      have hperm := hown.columns.map (p.wholeColumn first)
      rw [List.map_cons, hj, map_wholeColumn_range] at hperm
      unfold columns
      rwa [hsolution]
    · unfold columns
      rw [hsolution, List.map_map, List.map_map]
      rfl
    · rw [List.map_map]
      exact hsum.symm.trans (Option.some.inj hx)

end Placement

/-! ## Picks for all components -/

namespace Placements

def componentRows : List Placement → (first : Nat) → List CostRow
  | [], _ => []
  | p :: rest, first => p.rowsAt first ++ componentRows rest (first + p.component.privates)

def componentColumns (exit : Nat → Nat) : List Placement → (first : Nat) → List Nat
  | [], _ => []
  | p :: rest, first => p.columns first (exit p.surrogate) ++ componentColumns exit rest (first + p.component.privates)

def privates (ps : List Placement) : Nat := (ps.map (·.component.privates)).sum

def kept (ps : Placements) (n : Nat) : List Nat := (List.range n).filter fun i => i ∉ ps.toList.map (·.surrogate)

/-- The rows of the outer problem with its components written out. -/
def writtenOut (ps : Placements) (outer : Signature n) : List CostRow :=
  (ps.kept n).map outer.cost? ++ componentRows ps.toList n

def columns (ps : Placements) (n : Nat) (exit : Nat → Nat) : List Nat :=
  (ps.kept n).map exit ++ componentColumns exit ps.toList n

theorem privates_cons (p : Placement) (l : List Placement) : privates (p :: l) = p.component.privates + privates l := by
  simp [privates]

theorem perm_cons_range' {own rest exits : List Nat} {j : Nat} {l : List Placement}
    (h : own.Perm (j :: List.range' first p.component.privates))
    (hrest : rest.Perm (exits ++ List.range' (first + p.component.privates) (privates l))) :
    (own ++ rest).Perm (j :: exits ++ List.range' first (privates (p :: l))) := by
  rw [privates_cons, ← List.range'_append_1]
  refine (h.append hrest).trans ?_
  rw [List.cons_append, List.cons_append]
  refine List.Perm.cons j ?_
  rw [← List.append_assoc, ← List.append_assoc]
  exact List.perm_append_comm.append_right _

theorem componentRows_length (l : List Placement) (first : Nat) :
    (componentRows l first).length = l.length + privates l := by
  induction l generalizing first with
  | nil => rfl
  | cons p l ih =>
    have hrows : (p.rowsAt first).length = p.component.privates + 1 := by simp [Placement.rowsAt, Component.equations]
    rw [componentRows, List.length_append, ih, privates_cons, hrows, List.length_cons]
    omega

theorem lt_of_mem_componentRows {l : List Placement} {r : CostRow} {j : Nat} {x : Int} (hfits : ∀ p ∈ l, p.Fits n)
    (hr : r ∈ componentRows l first) (hx : r j = some x) : first ≤ j ∧ j < first + privates l ∨ j < n := by
  induction l generalizing first with
  | nil => cases hr
  | cons p l ih =>
    rw [privates_cons]
    rcases List.mem_append.mp hr with hr | hr
    · obtain ⟨e, -, rfl⟩ := List.mem_map.mp hr
      have := Placement.lt_of_rowAt (hfits p List.mem_cons_self) hx
      omega
    · have := ih (fun q hq => hfits q (List.mem_cons_of_mem _ hq)) hr
      omega

/-- Picks for all components that use all private columns leave each surrogate row a column of its own. -/
theorem exists_exits {l : List Placement} {picks : List (Nat × Int)} (hfits : ∀ p ∈ l, p.Fits n) (hfirst : n ≤ first)
    (h : Picks (componentRows l first) picks) (hnodup : (picks.map Prod.fst).Nodup)
    (hall : ∀ i, first ≤ i → i < first + privates l → i ∈ picks.map Prod.fst) :
    ∃ exits, Picks (l.map Placement.surrogateRow) exits ∧
      (picks.map Prod.fst).Perm (exits.map Prod.fst ++ List.range' first (privates l)) ∧
      (exits.map Prod.snd).sum ≤ (picks.map Prod.snd).sum := by
  induction l generalizing first picks with
  | nil =>
    cases h
    exact ⟨[], .nil, .nil, Int.le_refl _⟩
  | cons p l ih =>
    obtain ⟨own, rest, rfl, hown, hrest⟩ := h.split
    have hp := hfits p List.mem_cons_self
    have hl : ∀ q ∈ l, q.Fits n := fun q hq => hfits q (List.mem_cons_of_mem _ hq)
    have hsum := privates_cons p l
    rw [List.map_append] at hnodup hall
    obtain ⟨hnodupOwn, hnodupRest, -⟩ := List.nodup_append.mp hnodup
    have hrestColumns : ∀ i ∈ rest.map Prod.fst, first + p.component.privates ≤ i ∨ i < n := by
      intro i hi
      obtain ⟨pick, hpick, rfl⟩ := List.mem_map.mp hi
      obtain ⟨row, hrow, hx⟩ := hrest.exists_row hpick
      have := lt_of_mem_componentRows hl hrow hx
      omega
    have hownColumns : ∀ i ∈ own.map Prod.fst, i < first + p.component.privates := by
      intro i hi
      obtain ⟨pick, hpick, rfl⟩ := List.mem_map.mp hi
      obtain ⟨row, hrow, hx⟩ := hown.exists_row hpick
      obtain ⟨e, -, rfl⟩ := List.mem_map.mp hrow
      have := Placement.lt_of_rowAt hp hx
      omega
    obtain ⟨j, x, hsurrogate, hperm, hle⟩ := Placement.exists_exit hp hfirst hown hnodupOwn fun i hi hi' =>
      (List.mem_append.mp (hall i hi (by omega))).resolve_right fun hmem => by
        have := hrestColumns i hmem
        omega
    obtain ⟨exits, hexits, hperm', hle'⟩ := ih hl (by omega) hrest hnodupRest fun i hi hi' =>
      (List.mem_append.mp (hall i (by omega) (by omega))).resolve_left fun hmem => by
        have := hownColumns i hmem
        omega
    refine ⟨(j, x) :: exits, .cons hsurrogate hexits, ?_, ?_⟩
    · rw [List.map_append]
      exact perm_cons_range' hperm hperm'
    · rw [List.map_cons, List.sum_cons, List.map_append, List.sum_append]
      omega

/-- A column of its own for each surrogate row solves all components, at the costs of these rows. -/
theorem exists_solutions (exit : Nat → Nat) {l : List Placement} {exits : List (Nat × Int)} (hfits : ∀ p ∈ l, p.Fits n)
    (hfirst : n ≤ first) (h : Picks (l.map Placement.surrogateRow) exits)
    (hexits : exits.map Prod.fst = l.map fun p => exit p.surrogate) :
    ∃ picks, Picks (componentRows l first) picks ∧ picks.map Prod.fst = componentColumns exit l first ∧
      (picks.map Prod.fst).Perm (exits.map Prod.fst ++ List.range' first (privates l)) ∧
      (picks.map Prod.snd).sum = (exits.map Prod.snd).sum := by
  induction l generalizing first exits with
  | nil =>
    cases h
    exact ⟨[], .nil, rfl, .nil, rfl⟩
  | cons p l ih =>
    obtain ⟨⟨j, x⟩, exits, hx, hrest, rfl⟩ := List.forall₂_cons_left_iff.mp h
    rw [List.map_cons, List.map_cons, List.cons.injEq] at hexits
    obtain ⟨rfl, hexits⟩ := hexits
    obtain ⟨-, hperm, own, hown, hcolumns, hsum⟩ := Placement.exists_solution (hfits p List.mem_cons_self) hfirst hx
    obtain ⟨rest, hrest, hcolumns', hperm', hsum'⟩ :=
      ih (fun q hq => hfits q (List.mem_cons_of_mem _ hq)) (by omega : n ≤ first + p.component.privates) hrest hexits
    refine ⟨own ++ rest, hown.append hrest, ?_, ?_, ?_⟩
    · rw [List.map_append, hcolumns, hcolumns']
      rfl
    · rw [List.map_append, hcolumns]
      exact perm_cons_range' hperm hperm'
    · rw [List.map_append, List.sum_append, hsum, hsum', List.map_cons, List.sum_cons]

theorem kept_append_perm (hdistinct : (ps.toList.map (·.surrogate)).Nodup) (hrange : ∀ p ∈ ps.toList, p.surrogate < n) :
    (ps.kept n ++ ps.toList.map (·.surrogate)).Perm (List.range n) := by
  have hmem : ∀ i, i ∈ ps.kept n ↔ i < n ∧ i ∉ ps.toList.map (·.surrogate) := by simp [kept]
  have hnodup : (ps.kept n ++ ps.toList.map (·.surrogate)).Nodup := by
    refine List.nodup_append.mpr ⟨List.nodup_range.filter _, hdistinct, fun i hi k hk heq => ?_⟩
    exact ((hmem i).mp hi).2 (heq ▸ hk)
  refine (List.perm_ext_iff_of_nodup hnodup List.nodup_range).mpr fun i => ?_
  rw [List.mem_append, hmem, List.mem_range]
  constructor
  · rintro (⟨hi, -⟩ | hi)
    · exact hi
    · obtain ⟨p, hp, rfl⟩ := List.mem_map.mp hi
      exact hrange p hp
  · intro hi
    by_cases hs : i ∈ ps.toList.map (·.surrogate)
    · exact .inr hs
    · exact .inl ⟨hi, hs⟩

theorem writtenOut_length (hdistinct : (ps.toList.map (·.surrogate)).Nodup)
    (hrange : ∀ p ∈ ps.toList, p.surrogate < n) : (ps.writtenOut outer).length = n + privates ps.toList := by
  have := (kept_append_perm hdistinct hrange).length_eq
  rw [List.length_append, List.length_map, List.length_range] at this
  rw [writtenOut, List.length_append, List.length_map, componentRows_length]
  omega

theorem lt_of_mem_writtenOut {r : CostRow} {l : Nat} {x : Int} (hfits : ∀ p ∈ ps.toList, p.Fits n)
    (hr : r ∈ ps.writtenOut outer) (hx : r l = some x) : l < n + privates ps.toList := by
  rcases List.mem_append.mp hr with hr | hr
  · obtain ⟨i, -, rfl⟩ := List.mem_map.mp hr
    obtain ⟨-, hl, -⟩ := Signature.cost?_eq_some_iff.mp hx
    omega
  · have := lt_of_mem_componentRows hfits hr hx
    omega

theorem Placed.fits (hplaced : ps.Placed outer) : ∀ p ∈ ps.toList, p.Fits n :=
  fun p hp => ⟨hplaced.exact p hp, (hplaced.inRange p hp).2⟩

theorem Placed.kept_append_perm (hplaced : ps.Placed outer) :
    (ps.kept n ++ ps.toList.map (·.surrogate)).Perm (List.range n) :=
  Placements.kept_append_perm hplaced.distinct fun p hp => (hplaced.inRange p hp).1

theorem Placed.costRows_ofRows (hplaced : ps.Placed outer) :
    (Signature.ofRows (n + privates ps.toList) (ps.writtenOut outer)).costRows = ps.writtenOut outer := by
  exact Signature.costRows_ofRows (writtenOut_length hplaced.distinct fun p hp => (hplaced.inRange p hp).1)
    fun r hr l x hx => lt_of_mem_writtenOut hplaced.fits hr hx

theorem map_surrogateRow (hplaced : ps.Placed outer) :
    ps.toList.map Placement.surrogateRow = (ps.toList.map (·.surrogate)).map outer.cost? := by
  rw [List.map_map]
  exact List.map_congr_left fun p hp => funext fun l => (hplaced.surrogate p hp l).symm

/-- **Picks for the problem written out come from a transversal of the outer problem that costs no more.** -/
theorem exists_outer {picks : List (Nat × Int)} (hplaced : ps.Placed outer) (h : Picks (ps.writtenOut outer) picks)
    (hcolumns : (picks.map Prod.fst).Perm (List.range (n + privates ps.toList))) :
    ∃ σ, outer.IsTransversal σ ∧ outer.costOf σ ≤ (picks.map Prod.snd).sum := by
  obtain ⟨stay, components, rfl, hstay, hcomponents⟩ := h.split
  have hstayColumns : ∀ i ∈ stay.map Prod.fst, i < n := by
    intro i hi
    obtain ⟨pick, hpick, rfl⟩ := List.mem_map.mp hi
    obtain ⟨row, hrow, hx⟩ := hstay.exists_row hpick
    obtain ⟨k, -, rfl⟩ := List.mem_map.mp hrow
    exact (Signature.cost?_eq_some_iff.mp hx).2.1
  rw [List.map_append] at hcolumns
  have hnodup := (List.nodup_append.mp (hcolumns.nodup_iff.mpr List.nodup_range)).2.1
  obtain ⟨exits, hexits, hperm, hle⟩ := exists_exits hplaced.fits (Nat.le_refl n) hcomponents hnodup fun i hi hi' =>
    (List.mem_append.mp (hcolumns.mem_iff.mpr (List.mem_range.mpr hi'))).resolve_left fun hmem => by
      have := hstayColumns i hmem
      omega
  have houter : Picks ((ps.kept n ++ ps.toList.map (·.surrogate)).map outer.cost?) (stay ++ exits) := by
    rw [List.map_append, ← map_surrogateRow hplaced]
    exact hstay.append hexits
  have houterColumns : ((stay ++ exits).map Prod.fst).Perm (List.range n) := by
    rw [List.map_append]
    refine (List.perm_append_right_iff (List.range' n (privates ps.toList))).mp ?_
    have hsplit : List.range n ++ List.range' n (privates ps.toList) = List.range (n + privates ps.toList) := by
      rw [List.range_add, List.range'_eq_map_range]
    rw [hsplit, List.append_assoc]
    exact (hperm.symm.append_left _).trans hcolumns
  obtain ⟨all, hall, hallPerm⟩ := houter.perm_rows (hplaced.kept_append_perm.symm.map outer.cost?)
  obtain ⟨σ, hσ, heq⟩ := Signature.exists_transversal hall ((hallPerm.map Prod.fst).trans houterColumns)
  refine ⟨σ, hσ, ?_⟩
  rw [← Signature.picksOf_cost, ← heq, (hallPerm.map Prod.snd).sum_eq, List.map_append, List.map_append,
    List.sum_append, List.sum_append]
  omega

/-- **A transversal of the outer problem is written out at its own cost.** -/
theorem exists_picks {σ : Equiv.Perm (Fin n)} {exit : Nat → Nat} (hplaced : ps.Placed outer)
    (hσ : outer.IsTransversal σ)
    (hexit : ∀ i, exit i.val = σ i) :
    ∃ picks, Picks (ps.writtenOut outer) picks ∧ picks.map Prod.fst = ps.columns n exit ∧
      (picks.map Prod.fst).Perm (List.range (n + privates ps.toList)) ∧ (picks.map Prod.snd).sum = outer.costOf σ := by
  let pick : Nat → Nat × Int := fun i => (exit i, (outer.cost? i (exit i)).getD 0)
  have hpick : ∀ is : List Nat, (∀ i ∈ is, i < n) → Picks (is.map outer.cost?) (is.map pick) := by
    intro is his
    unfold Picks
    rw [List.forall₂_map_left_iff, List.forall₂_map_right_iff, List.forall₂_same]
    intro i hi
    obtain ⟨x, hx⟩ := hσ ⟨i, his i hi⟩
    rw [← Signature.cost?_eq, ← hexit] at hx
    dsimp only [pick]
    rw [hx, Option.getD_some]
  have hall : (List.range n).map pick = outer.picksOf σ := by
    rw [← List.map_coe_finRange_eq_range, List.map_map]
    refine List.map_congr_left fun i _ => ?_
    simp only [Function.comp_apply, pick, hexit, Signature.cost?_eq]
  have hrange : ∀ p ∈ ps.toList, p.surrogate < n := fun p hp => (hplaced.inRange p hp).1
  have hperm : ((ps.kept n).map pick ++ (ps.toList.map (·.surrogate)).map pick).Perm (outer.picksOf σ) := by
    rw [← hall, ← List.map_append]
    exact hplaced.kept_append_perm.map pick
  have hkept : ∀ i ∈ ps.kept n, i < n := fun i hi => List.mem_range.mp (List.mem_filter.mp hi).1
  have hexits : Picks (ps.toList.map Placement.surrogateRow) ((ps.toList.map (·.surrogate)).map pick) := by
    rw [map_surrogateRow hplaced]
    exact hpick _ fun i hi => by
      obtain ⟨p, hp, rfl⟩ := List.mem_map.mp hi
      exact hrange p hp
  obtain ⟨picks, hpicks, hcolumns, hpicksPerm, hsum⟩ := exists_solutions exit
    hplaced.fits (Nat.le_refl n) hexits (by rw [List.map_map, List.map_map]; rfl)
  refine ⟨(ps.kept n).map pick ++ picks, (hpick _ hkept).append hpicks, ?_, ?_, ?_⟩
  · rw [List.map_append, hcolumns, List.map_map]
    rfl
  · have houter := (hperm.map Prod.fst).trans Signature.picksOf_columns
    rw [List.map_append] at houter ⊢
    refine (hpicksPerm.append_left _).trans ?_
    rw [← List.append_assoc, List.range_add, ← List.range'_eq_map_range]
    exact houter.append_right _
  · rw [List.map_append, List.sum_append, hsum, ← Signature.picksOf_cost, ← (hperm.map Prod.snd).sum_eq,
      List.map_append, List.sum_append]

end Placements

end SigmaMethod
