import SigmaMethod.Component.Builder
import SigmaMethod.Proofs.Matching.Picks
import SigmaMethod.Proofs.Matching.Solver

/-!
# Exits of a component

The equations of a component are solved for its private variables and one public variable, the exit. The sealed problem
ties all other public variables to rows of their own, so its transversals are the picks for the equations with the other
public variables added, at no cost.
-/

namespace SigmaMethod

open Signature (Functional)

/-! ## Entries of a builder -/

def costIn (es : List (Nat × Nat × Int)) (i : Nat) : CostRow := fun j =>
  (es.find? fun e => e.1 = i ∧ e.2.1 = j).map (·.2.2)

theorem costIn_eq_some_iff {es : List (Nat × Nat × Int)} (hfun : Functional es) {i j : Nat} {x : Int} :
    costIn es i j = some x ↔ (i, j, x) ∈ es := by
  unfold costIn
  constructor
  · intro h
    obtain ⟨⟨k, l, y⟩, hfind, rfl⟩ := Option.map_eq_some_iff.mp h
    have hpos := List.find?_some hfind
    simp only [Bool.decide_and, Bool.and_eq_true, decide_eq_true_eq] at hpos
    obtain ⟨rfl, rfl⟩ := hpos
    exact List.mem_of_find?_eq_some hfind
  · intro h
    cases hfind : es.find? fun e => e.1 = i ∧ e.2.1 = j with
    | none =>
      have := List.find?_eq_none.mp hfind _ h
      simp at this
    | some e =>
      obtain ⟨k, l, y⟩ := e
      have hpos := List.find?_some hfind
      simp only [Bool.decide_and, Bool.and_eq_true, decide_eq_true_eq] at hpos
      obtain ⟨rfl, rfl⟩ := hpos
      rw [hfun k l x y h (List.mem_of_find?_eq_some hfind)]
      rfl

namespace ComponentBuilder

variable {b : ComponentBuilder}

theorem mem_entries_iff {i j : Nat} {x : Int} :
    (i, j, x) ∈ b.entries ↔ ∃ row, b.costs.find? i = some row ∧ row.find? j = some x := by
  simp only [entries, List.mem_flatMap, List.mem_map, SortedMap.find?_eq_some_iff]
  constructor
  · rintro ⟨⟨k, row⟩, hrow, ⟨l, y⟩, hcost, heq⟩
    cases heq
    exact ⟨row, hrow, hcost⟩
  · rintro ⟨row, hrow, hcost⟩
    exact ⟨(i, row), hrow, (j, x), hcost, rfl⟩

theorem entries_functional (b : ComponentBuilder) : Functional b.entries := by
  intro i j x y hx hy
  obtain ⟨row, hrow, hx⟩ := mem_entries_iff.mp hx
  obtain ⟨row', hrow', hy⟩ := mem_entries_iff.mp hy
  rw [hrow] at hrow'
  cases hrow'
  rw [hx] at hy
  exact Option.some.inj hy

theorem mem_entries_put {i j k l : Nat} {x y : Int} :
    (i, j, x) ∈ (b.put k l y).entries ↔ if i = k ∧ j = l then x = y else (i, j, x) ∈ b.entries := by
  rw [mem_entries_iff, mem_entries_iff]
  unfold put
  simp only [SortedMap.find?_put]
  by_cases hi : i = k
  · subst hi
    by_cases hj : j = l
    · simp [hj, SortedMap.find?_put, eq_comm]
    · cases hrow : b.costs.find? i <;> simp [hj, SortedMap.find?_put]
  · simp [hi]

/-- A builder that commands have filled, whether each of them succeeded or not. -/
inductive Built : ComponentBuilder → Prop
  | empty (publics privates : Nat) : Built (.empty publics privates)
  | setPublic {b : ComponentBuilder} (equation unknown : Nat) (derivative : Int) :
      Built b → Built ((setPublic equation unknown derivative).apply b).2
  | setPrivate {b : ComponentBuilder} (equation unknown : Nat) (derivative : Int) :
      Built b → Built ((setPrivate equation unknown derivative).apply b).2

def InRange (b : ComponentBuilder) : Prop :=
  ∀ i j x, (i, j, x) ∈ b.entries → i < b.privates + 1 ∧ j < b.privates + b.publics

theorem InRange.put (h : b.InRange) {k l : Nat} {y : Int} (hk : k < b.privates + 1) (hl : l < b.privates + b.publics) :
    (b.put k l y).InRange := by
  intro i j x hx
  rw [mem_entries_put] at hx
  split at hx
  · rename_i hkl
    obtain ⟨rfl, rfl⟩ := hkl
    exact ⟨hk, hl⟩
  · exact h i j x hx

theorem lt_of_checkEquation {equation : Nat} {x : Unit} (h : b.checkEquation equation = .ok x) :
    equation < b.privates + 1 := by
  have hspec : Delivers (b.checkEquation equation) (fun _ => equation < b.privates + 1) (fun _ => True) := by
    unfold checkEquation
    refine .bind (.fitIndex rfl) fun bound hbound => ?_
    subst hbound
    exact .checkIndex id fun _ => trivial
  exact hspec.answer h

theorem Built.inRange (h : b.Built) : b.InRange := by
  induction h with
  | empty publics privates => exact fun i j x hx => nomatch hx
  | @setPublic b equation unknown derivative _ ih =>
    unfold ComponentBuilder.setPublic
    rw [Update.apply_get_bind]
    refine Update.liftM_bind_leaves ih fun _ hequation => Update.liftM_bind_leaves ih fun _ hunknown => ?_
    refine Update.liftM_bind_leaves ih fun column hcolumn => Update.liftM_bind_leaves ih fun cost _ => ?_
    have hcolumn : b.privates + unknown = column := (Delivers.fitIndex (F := fun _ => True) rfl).answer hcolumn
    have := checkIndex_eq_ok_iff.mp hunknown
    exact ih.put (lt_of_checkEquation hequation) (by omega)
  | @setPrivate b equation unknown derivative _ ih =>
    unfold ComponentBuilder.setPrivate
    rw [Update.apply_get_bind]
    refine Update.liftM_bind_leaves ih fun _ hequation => Update.liftM_bind_leaves ih fun _ hunknown => ?_
    refine Update.liftM_bind_leaves ih fun cost _ => ?_
    have := checkIndex_eq_ok_iff.mp hunknown
    exact ih.put (lt_of_checkEquation hequation) (by omega)

/-! ## The sealed problem -/

def rows (b : ComponentBuilder) : List CostRow := (List.range (b.privates + 1)).map (costIn b.entries)

/-- A row that ties a public variable other than `exit`. -/
def pinRow (b : ComponentBuilder) (exit : Nat) : CostRow := fun j =>
  if b.privates ≤ j ∧ j < b.privates + b.publics ∧ j ≠ b.privates + exit then some 0 else none

def pinEntries (b : ComponentBuilder) (exit : Nat) : List (Nat × Nat × Int) :=
  (b.pins exit).map fun pin => (pin.1, pin.2, 0)

theorem mem_pinEntries_iff {exit i j : Nat} {x : Int} : (i, j, x) ∈ b.pinEntries exit ↔
    b.privates + 1 ≤ i ∧ i < b.privates + 1 + (b.publics - 1) ∧ b.pinRow exit j = some x := by
  simp only [pinEntries, pins, List.mem_flatMap, List.mem_range'_1, List.mem_map, List.mem_filter, List.mem_range,
    pinRow]
  constructor
  · rintro ⟨_, ⟨i', hi', k, ⟨hk, hne⟩, rfl⟩, heq⟩
    cases heq
    have hne : k ≠ exit := by simpa using hne
    exact ⟨hi'.1, hi'.2, if_pos ⟨by omega, by omega, by omega⟩⟩
  · rintro ⟨hi, hi', hrow⟩
    split at hrow
    · cases hrow
      refine ⟨(i, j), ⟨i, ⟨hi, hi'⟩, j - b.privates, ⟨by omega, by simp; omega⟩, ?_⟩, rfl⟩
      rw [Prod.mk.injEq]
      exact ⟨rfl, by omega⟩
    · cases hrow

theorem pinAll_spec {exit : Nat} {m : Signature (b.privates + b.publics)} (hpublics : 0 < b.publics)
    (hfree : ∀ i j, b.privates + 1 ≤ i → m.cost? i j = none) :
    Yields ((b.pins exit).foldlM (fun m (i, j) => (Signature.insert i j 0).result m) m) fun t =>
      m.Adds t (b.pinEntries exit) := by
  have hrow : ∀ e ∈ b.pinEntries exit, b.privates + 1 ≤ e.1 ∧ e.1 < b.privates + 1 + (b.publics - 1) ∧
      b.pinRow exit e.2.1 = some e.2.2 := fun e he => mem_pinEntries_iff.mp he
  have hfun : Functional (b.pinEntries exit) := by
    intro i j x y hx hy
    have hx := (mem_pinEntries_iff.mp hx).2.2
    rw [(mem_pinEntries_iff.mp hy).2.2] at hx
    exact (Option.some.inj hx).symm
  have hrange : ∀ e ∈ b.pinEntries exit, e.1 < b.privates + b.publics ∧ e.2.1 < b.privates + b.publics := by
    intro e he
    obtain ⟨hi, hi', hrow⟩ := hrow e he
    unfold pinRow at hrow
    split at hrow
    · omega
    · cases hrow
  have hall := Signature.insertAll_spec hfun (fun e he => hfree e.1 e.2.1 (hrow e he).1) hrange
  rw [pinEntries, List.foldlM_map] at hall
  exact hall

/-- The rows of the sealed problem: those of the equations, and the tied public variables below them. -/
def sealedRows (b : ComponentBuilder) (exit : Nat) : List CostRow :=
  b.rows ++ List.replicate (b.publics - 1) (b.pinRow exit)

theorem sealedRows_getElem? (b : ComponentBuilder) (exit r : Nat) : (b.sealedRows exit)[r]? =
    if r < b.privates + 1 then some (costIn b.entries r)
    else if r < b.privates + 1 + (b.publics - 1) then some (b.pinRow exit) else none := by
  have hlength : b.rows.length = b.privates + 1 := by simp [rows]
  unfold sealedRows
  rw [List.getElem?_append, hlength]
  split
  · simp [rows, *]
  · rw [List.getElem?_replicate]
    refine if_congr (by omega) rfl rfl

theorem sealedAt_spec {exit : Nat} (h : b.InRange) (hpublics : 0 < b.publics) :
    Yields (b.sealedAt (b.privates + b.publics) exit) fun m => m.costRows = b.sealedRows exit := by
  unfold sealedAt
  refine Delivers.bind (P := fun m => (Signature.empty (b.privates + b.publics)).Adds m b.entries) ?_ fun m hm => ?_
  · refine Signature.insertAll_spec b.entries_functional (fun e _ => Signature.cost?_empty) fun e he => ?_
    have := h e.1 e.2.1 e.2.2 he
    omega
  have hm : ∀ r l x, m.cost? r l = some x ↔ (r, l, x) ∈ b.entries := fun r l x => by
    rw [hm r l x]
    simp
  have hfree : ∀ i j, b.privates + 1 ≤ i → m.cost? i j = none := by
    intro i j hi
    rw [Option.eq_none_iff_forall_ne_some]
    intro x hx
    have := h i j x ((hm i j x).mp hx)
    omega
  refine (pinAll_spec hpublics hfree).imp fun t ht => ?_
  refine Signature.HasRows.costRows_eq (fun r l => Option.ext fun x => ?_) (by simp [sealedRows, rows]; omega)
  rw [ht, hm, mem_pinEntries_iff, sealedRows_getElem?, ← costIn_eq_some_iff b.entries_functional]
  have hnone : ¬ r < b.privates + 1 → costIn b.entries r l ≠ some x := by
    intro hr hx
    exact hr (h r l x ((costIn_eq_some_iff b.entries_functional).mp hx)).1
  split
  · rename_i hr
    simp [Nat.not_le.mpr hr]
  · rename_i hr
    rw [or_iff_right (hnone hr)]
    split
    · rename_i hr'
      simp [Nat.not_lt.mp hr, hr']
    · rename_i hr'
      simp [hr']

end ComponentBuilder

/-! ## Picks that solve the equations -/

structure ExitPicks (rows : List CostRow) (privates exit : Nat) (picks : List (Nat × Int)) : Prop where
  solved : Picks rows picks
  columns : (picks.map Prod.fst).Perm ((privates + exit) :: List.range privates)

namespace ComponentBuilder

variable {b : ComponentBuilder} {exit : Nat} {m : Signature (b.privates + b.publics)}

def tied (b : ComponentBuilder) (exit : Nat) : List Nat :=
  ((List.range b.publics).erase exit).map (b.privates + ·)

theorem range_perm (hexit : exit < b.publics) :
    (List.range (b.privates + b.publics)).Perm (((b.privates + exit) :: List.range b.privates) ++ b.tied exit) := by
  have hpublics := (List.perm_cons_erase (List.mem_range.mpr hexit)).map (b.privates + ·)
  rw [List.range_add]
  exact (hpublics.append_left _).trans List.perm_middle

theorem tied_length (hexit : exit < b.publics) : (b.tied exit).length = b.publics - 1 := by
  have := (range_perm hexit).length_eq
  simp at this
  omega

theorem pinRow_eq_some_iff {j : Nat} {x : Int} : b.pinRow exit j = some x ↔ j ∈ b.tied exit ∧ x = 0 := by
  have hmem : j ∈ b.tied exit ↔ b.privates ≤ j ∧ j < b.privates + b.publics ∧ j ≠ b.privates + exit := by
    simp only [tied, List.mem_map, List.nodup_range.mem_erase_iff, List.mem_range]
    constructor
    · rintro ⟨k, ⟨hne, hk⟩, rfl⟩
      omega
    · intro hj
      exact ⟨j - b.privates, by omega, by omega⟩
  unfold pinRow
  rw [hmem]
  split
  · simp [*, eq_comm]
  · simp [*]

theorem exitPicks_of_isTransversal (hexit : exit < b.publics) (hm : m.costRows = b.sealedRows exit)
    {σ : Equiv.Perm (Fin (b.privates + b.publics))} (hσ : m.IsTransversal σ) :
    ∃ picks, ExitPicks b.rows b.privates exit picks ∧ (picks.map Prod.snd).sum = m.costOf σ ∧
      picks.map Prod.fst = ((m.picksOf σ).map Prod.fst).take (b.privates + 1) := by
  have hpicks := hσ.picks
  have hcolumns := Signature.picksOf_columns (m := m) (σ := σ)
  have hcost := Signature.picksOf_cost (m := m) (σ := σ)
  rw [hm] at hpicks
  obtain ⟨picks, pins, heq, hrows, hpins⟩ := hpicks.split
  rw [heq, List.map_append] at hcolumns hcost
  obtain ⟨hlength, hpin⟩ := Picks.replicate_iff.mp hpins
  have hpin : ∀ pin ∈ pins, pin.1 ∈ b.tied exit ∧ pin.2 = 0 := fun pin hmem => pinRow_eq_some_iff.mp (hpin pin hmem)
  -- the tied rows use up the tied columns, so what is left for the equations is the exit and the private columns
  have hpinColumns : (pins.map Prod.fst).Perm (b.tied exit) := by
    have hnodup : (pins.map Prod.fst).Nodup := (List.nodup_append.mp (hcolumns.nodup_iff.mpr List.nodup_range)).2.1
    refine (List.subperm_of_subset hnodup fun j hj => ?_).perm_of_length_le ?_
    · obtain ⟨pin, hmem, rfl⟩ := List.mem_map.mp hj
      exact (hpin pin hmem).1
    · rw [List.length_map, hlength, tied_length hexit]
  have hpinCost : (pins.map Prod.snd).sum = 0 := by
    refine List.sum_eq_zero fun x hx => ?_
    obtain ⟨pin, hmem, rfl⟩ := List.mem_map.mp hx
    exact (hpin pin hmem).2
  refine ⟨picks, ⟨hrows, ?_⟩, ?_, ?_⟩
  · refine (List.perm_append_right_iff (b.tied exit)).mp ?_
    exact ((hpinColumns.symm.append_left _).trans hcolumns).trans (range_perm hexit)
  · rw [← hcost, List.sum_append, hpinCost, Int.add_zero]
  · have hsize : b.privates + 1 = (picks.map Prod.fst).length := by
      rw [List.length_map, ← hrows.length_eq]
      simp [rows]
    rw [heq, List.map_append, hsize, List.take_left]

theorem exists_isTransversal (hexit : exit < b.publics) (hm : m.costRows = b.sealedRows exit) {picks : List (Nat × Int)}
    (h : ExitPicks b.rows b.privates exit picks) : ∃ σ, m.IsTransversal σ ∧ m.costOf σ = (picks.map Prod.snd).sum := by
  let pins : List (Nat × Int) := (b.tied exit).map fun j => (j, 0)
  have hpins : Picks (List.replicate (b.publics - 1) (b.pinRow exit)) pins := by
    refine Picks.replicate_iff.mpr ⟨by rw [List.length_map, tied_length hexit], fun pin hmem => ?_⟩
    obtain ⟨j, hj, rfl⟩ := List.mem_map.mp hmem
    exact pinRow_eq_some_iff.mpr ⟨hj, rfl⟩
  have hpicks : Picks m.costRows (picks ++ pins) := by
    rw [hm]
    exact h.solved.append hpins
  have hcolumns : ((picks ++ pins).map Prod.fst).Perm (List.range (b.privates + b.publics)) := by
    have hpinColumns : pins.map Prod.fst = b.tied exit := by simp [pins, Function.comp_def]
    rw [List.map_append, hpinColumns]
    exact (h.columns.append_right _).trans (range_perm hexit).symm
  obtain ⟨σ, hσ, heq⟩ := Signature.exists_transversal hpicks hcolumns
  refine ⟨σ, hσ, ?_⟩
  rw [← Signature.picksOf_cost, ← heq]
  simp [pins, Function.comp_def]

end ComponentBuilder

/-! ## Building -/

/-- The columns and the cost for an exit: those of least cost, none if the equations cannot be solved for it. -/
def ExitSolved (rows : List CostRow) (privates exit : Nat) : Option (List Nat × Int) → Prop
  | none => ∀ picks, ¬ ExitPicks rows privates exit picks
  | some (columns, cost) => ∃ picks, ExitPicks rows privates exit picks ∧ columns = picks.map Prod.fst ∧
      cost = (picks.map Prod.snd).sum ∧ ∀ picks', ExitPicks rows privates exit picks' → cost ≤ (picks'.map Prod.snd).sum

theorem ComponentBuilder.exitMatching_spec {b : ComponentBuilder} {exit : Nat} (h : b.InRange)
    (hexit : exit < b.publics) :
    Yields (b.exitMatching (b.privates + b.publics) exit) (ExitSolved b.rows b.privates exit) := by
  unfold exitMatching
  refine (sealedAt_spec h (by omega)).bind fun m hm => ?_
  have hsolve := m.solve_spec {}
  generalize m.solve {} = outcome at hsolve
  match outcome, hsolve with
  | .ok s, ⟨σ, u, v, hs, hsupports⟩ =>
    obtain ⟨picks, hpicks, hcost, hcolumns⟩ := exitPicks_of_isTransversal hexit hm hs.meets.isTransversal
    refine .pure ⟨picks, hpicks, ?_, by rw [hcost, hs.cost], fun picks' hpicks' => ?_⟩
    · rw [hcolumns, hs.columnOf, Array.toList_ofFn, Signature.picksOf_fst]
    · obtain ⟨τ, hτ, hcost'⟩ := exists_isTransversal hexit hm hpicks'
      rw [hs.cost, ← hcost']
      exact (hsupports.isOptimal hs.meets).least τ hτ
  | .error (.refused r), hsing =>
    have hr : r.isStructural = true := by
      rw [hsing.1]
      rfl
    dsimp only
    rw [if_pos hr]
    refine .pure fun picks hpicks => ?_
    obtain ⟨σ, hσ, -⟩ := exists_isTransversal hexit hm hpicks
    exact hsing.2 σ hσ
  | .error .overflow, _ => trivial

structure ComponentBuilder.Finishes (b : ComponentBuilder) (c : Component) : Prop where
  publics : c.publics = b.publics
  privates : c.privates = b.privates
  entries : c.entries = b.entries
  exits : ∀ k < b.publics, ∃ solved : Option (List Nat × Int), c.matchings[k]? = some (solved.map (·.1)) ∧
    c.exitCosts[k]? = some (solved.map (·.2)) ∧ ExitSolved b.rows b.privates k solved
  available : ∃ k < b.publics, ∃ picks, ExitPicks b.rows b.privates k picks

inductive ComponentBuilder.Hopeless (b : ComponentBuilder) : Refusal → Prop
  | noPublics : b.publics = 0 → Hopeless b (.compression .noPublics)
  | noExit : 0 < b.publics → (∀ k < b.publics, ∀ picks, ¬ ExitPicks b.rows b.privates k picks) →
      Hopeless b (.compression .singularForEveryPublic)

theorem ComponentBuilder.build_finishes {b : ComponentBuilder} (h : b.InRange) :
    Delivers b.build b.Finishes b.Hopeless := by
  unfold build
  split
  · exact .refuse (.noPublics ‹_›)
  rename_i hpublics
  refine .bind (.fitIndex rfl) fun n hn => ?_
  subst hn
  refine (Delivers.mapM (R := fun k => ExitSolved b.rows b.privates k) fun k hk =>
    (exitMatching_spec h (List.mem_range.mp hk)).widen).bind fun exits hexits => ?_
  have hlength : exits.length = b.publics := by
    rw [← hexits.length_eq, List.length_range]
  have hget : ∀ k (hk : k < exits.length), ExitSolved b.rows b.privates k exits[k] := by
    intro k hk
    have := List.Forall₂.get hexits (by simpa [hlength] using hk) hk
    simpa using this
  dsimp only
  split
  · rename_i hall
    refine .refuse (.noExit (Nat.pos_of_ne_zero hpublics) fun k hk => ?_)
    have hk' : k < exits.length := by omega
    have hnone := List.all_eq_true.mp hall exits[k] (List.getElem_mem hk')
    have hexit := hget k hk'
    rw [Option.isNone_iff_eq_none] at hnone
    rw [hnone] at hexit
    exact hexit
  · rename_i hsome
    refine .pure ⟨rfl, rfl, rfl, fun k hk => ?_, ?_⟩
    · have hk' : k < exits.length := by omega
      exact ⟨exits[k], by simp [hk'], by simp [hk'], hget k hk'⟩
    · simp only [List.all_eq_true, not_forall, Option.isNone_iff_eq_none] at hsome
      obtain ⟨solved, hmem, hsome⟩ := hsome
      obtain ⟨k, hk, rfl⟩ := List.getElem_of_mem hmem
      obtain ⟨x, hx⟩ := Option.ne_none_iff_exists'.mp hsome
      have hexit := hget k hk
      rw [hx] at hexit
      obtain ⟨picks, hpicks, -⟩ := hexit
      exact ⟨k, by omega, picks, hpicks⟩

def Component.rows (c : Component) : List CostRow := (List.range c.equations).map (costIn c.entries)

structure Component.Exact (c : Component) : Prop where
  functional : Functional c.entries
  inRange : ∀ i j x, (i, j, x) ∈ c.entries → i < c.equations ∧ j < c.privates + c.publics
  exits : ∀ k < c.publics, ∃ solved : Option (List Nat × Int), c.matchings[k]? = some (solved.map (·.1)) ∧
    c.exitCosts[k]? = some (solved.map (·.2)) ∧ ExitSolved c.rows c.privates k solved

theorem Component.Exact.matching_perm {c : Component} (h : c.Exact) {exit : Nat} {internal : List Nat}
    (hexit : exit < c.publics) (hinternal : c.matchings[exit]? = some (some internal)) :
    internal.Perm ((c.privates + exit) :: List.range c.privates) := by
  obtain ⟨solved, hmatching, -, hsolved⟩ := h.exits exit hexit
  rw [hmatching] at hinternal
  cases solved with
  | none => cases hinternal
  | some solved =>
    cases hinternal
    obtain ⟨picks, hpicks, hcolumns, -⟩ := hsolved
    dsimp only
    rw [hcolumns]
    exact hpicks.columns

theorem Component.Exact.exists_entry {c : Component} (h : c.Exact) {exit i j : Nat} {internal : List Nat}
    (hexit : exit < c.publics) (hinternal : c.matchings[exit]? = some (some internal)) (hi : internal[i]? = some j) :
    ∃ x, (i, j, x) ∈ c.entries := by
  obtain ⟨solved, hmatching, -, hsolved⟩ := h.exits exit hexit
  rw [hmatching] at hinternal
  cases solved with
  | none => cases hinternal
  | some solved =>
    cases hinternal
    obtain ⟨picks, hpicks, hcolumns, -⟩ := hsolved
    dsimp only at hi
    rw [hcolumns, List.getElem?_map, Option.map_eq_some_iff] at hi
    obtain ⟨pick, hpick, rfl⟩ := hi
    obtain ⟨hlt, rfl⟩ := List.getElem?_eq_some_iff.mp hpick
    have hrow := List.Forall₂.get hpicks.solved (hpicks.solved.length_eq.symm ▸ hlt) hlt
    refine ⟨picks[i].2, (costIn_eq_some_iff h.functional).mp ?_⟩
    simpa [Component.rows] using hrow

theorem ComponentBuilder.build_spec {b : ComponentBuilder} (h : b.InRange) :
    Delivers b.build Component.Exact
      (fun _ => b.publics = 0 ∨ ∀ k < b.publics, ∀ picks, ¬ ExitPicks b.rows b.privates k picks) := by
  refine (build_finishes h).mono (fun c hc => ?_) fun r hr => ?_
  · have hrows : c.rows = b.rows := by
      rw [Component.rows, Component.equations, hc.entries, hc.privates, rows]
    refine ⟨hc.entries ▸ b.entries_functional, ?_, ?_⟩
    · rw [hc.entries, Component.equations, hc.privates, hc.publics]
      exact h
    · rw [hc.publics, hrows, hc.privates]
      exact hc.exits
  · cases hr with
    | noPublics hzero => exact .inl hzero
    | noExit _ hnone => exact .inr hnone

theorem Component.exact_of_built {c : Component} (h : ∃ b : ComponentBuilder, b.Built ∧ b.build = .ok c) : c.Exact := by
  obtain ⟨b, hb, hbuild⟩ := h
  exact (ComponentBuilder.build_spec hb.inRange).answer hbuild

end SigmaMethod
