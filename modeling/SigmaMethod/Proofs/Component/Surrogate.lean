import SigmaMethod.Component.Placement
import SigmaMethod.Proofs.Component.Exit

/-!
# Surrogate rows

A surrogate row that was empty holds exactly the exit costs of its component once `setPublicParts` has written it,
whatever else is written to the outer problem before and after.
-/

namespace SigmaMethod

variable {n k : Nat} {ps : Placements} {p : Placement} {m m' : Signature n}

def Placement.surrogateRow (p : Placement) : CostRow := fun l =>
  if p.firstPublic ≤ l ∧ l < p.firstPublic + p.component.publics then
    p.component.exitCosts[l - p.firstPublic]?.join
  else none

theorem Placement.lt_of_surrogateRow {l : Nat} {x : Int} (h : p.surrogateRow l = some x) :
    p.firstPublic ≤ l ∧ l < p.firstPublic + p.component.publics := by
  by_contra hno
  rw [surrogateRow, if_neg hno] at h
  cases h

namespace Placements

def rowOver (p : Placement) (done : List Nat) : CostRow := fun l =>
  if p.firstPublic ≤ l ∧ l - p.firstPublic ∈ done then p.component.exitCosts[l - p.firstPublic]?.join else none

theorem rowOver_range (p : Placement) : rowOver p (List.range p.component.publics) = p.surrogateRow := by
  funext l
  unfold rowOver Placement.surrogateRow
  refine if_congr ?_ rfl rfl
  rw [List.mem_range]
  omega

def Overwrites (m m' : Signature n) (i : Nat) (row : CostRow) : Prop :=
  ∀ r l, m'.cost? r l = if r = i then (row l).or (m.cost? r l) else m.cost? r l

theorem writeExits_spec (hexact : p.component.Exact) (m : Signature n) :
    Delivers ((List.range p.component.publics).foldlM (fun t e =>
        (do
          match ← (p.component.exitCost e : Outcome _) with
          | some cost => Signature.insert p.surrogate (p.firstPublic + e) cost
          | none => pure () : Update (Signature n) Unit).result t) m)
      (fun m' => Overwrites m m' p.surrogate p.surrogateRow) (fun _ => True) := by
  rw [← rowOver_range]
  refine Delivers.foldlM_done (I := fun done (t : Signature n) => Overwrites m t p.surrogate (rowOver p done))
    (fun r l => by simp [rowOver]) ?_
  intro done e t hdone ht
  have hrow : ∀ l, l ≠ p.firstPublic + e → rowOver p (done ++ [e]) l = rowOver p done l := by
    intro l hl
    unfold rowOver
    refine if_congr (and_congr_right fun hle => ?_) rfl rfl
    rw [List.mem_append, List.mem_singleton]
    exact or_iff_left (by omega)
  have hlast : rowOver p (done ++ [e]) (p.firstPublic + e) = p.component.exitCosts[e]?.join := by
    simp [rowOver]
  have he : e < p.component.publics := List.mem_range.mp (hdone.subset (by simp))
  obtain ⟨solved, -, hcost, -⟩ := hexact.exits e he
  have hexitCost : p.component.exitCost e = .ok (solved.map (·.2)) := by
    simp [Component.exitCost, checkIndex, he, lookAt, hcost]
  rw [hcost] at hlast
  rw [Update.result_liftM_bind, hexitCost]
  cases solved with
  | some x =>
    refine (Signature.insert_spec t p.surrogate (p.firstPublic + e) x.2).mono (fun t' hput r l => ?_) fun _ _ => trivial
    rw [hput, ht]
    by_cases hl : l = p.firstPublic + e
    · subst hl
      rw [hlast]
      by_cases hr : r = p.surrogate <;> simp [hr]
    · simp [hl, hrow l hl]
  | none =>
    refine .ok fun r l => ?_
    rw [ht]
    by_cases hl : l = p.firstPublic + e
    · subst hl
      have hold : rowOver p done (p.firstPublic + e) = none := by
        simp [rowOver, hcost]
      rw [hlast, hold]
      rfl
    · rw [hrow l hl]

theorem setPublicParts_spec (hexact : ∀ p ∈ ps.toList, p.component.Exact) (k : Nat) (m : Signature n) :
    Delivers ((ps.setPublicParts k).result m)
      (fun m' => ∃ p, ps[k]? = some p ∧ p.surrogate < n ∧ p.firstPublic + p.component.publics ≤ n ∧
        Overwrites m m' p.surrogate p.surrogateRow) (fun _ => True) := by
  unfold setPublicParts
  rw [Update.result_liftM_bind]
  refine .bind (.checkIndex (P := fun _ => k < ps.size) id fun _ => trivial) fun _ hk => ?_
  rw [Update.result_liftM_bind]
  refine .bind (.lookAt (P := (· = ps[k])) hk rfl) fun p hp => ?_
  dsimp only
  rw [Update.result_liftM_bind]
  refine .bind (.checkIndex (P := fun _ => p.surrogate < n) id fun _ => trivial) fun _ hsurrogate => ?_
  rw [Update.result_liftM_bind]
  refine .bind (.fitIndex rfl) fun last hlast => ?_
  subst hlast
  split
  · exact .refuse trivial
  · rename_i hlast
    rw [Update.result_forM]
    have hpk : ps[k]? = some p := by rw [hp, Array.getElem?_eq_getElem hk]
    have hmem : p ∈ ps.toList := Array.mem_toList_iff.mpr (Array.mem_of_getElem? hpk)
    exact (writeExits_spec (hexact p hmem) m).imp fun m' hm' => ⟨p, hpk, hsurrogate, by omega, hm'⟩

/-! ## Prepared outer problems -/

/-- An outer problem whose surrogate rows were empty, and into which `setPublicParts` has written those of the
placements `done`. Rows that are no surrogates may be written to at any time. -/
inductive Prepared (ps : Placements) : List Nat → Signature n → Prop
  | start {m : Signature n} : (∀ p ∈ ps.toList, ∀ l, m.cost? p.surrogate l = none) → Prepared ps [] m
  | insert {done : List Nat} {m m' : Signature n} (i j : Nat) (x : Int) : Prepared ps done m →
      (∀ p ∈ ps.toList, p.surrogate ≠ i) → (Signature.insert i j x).result m = .ok m' → Prepared ps done m'
  | publics {done : List Nat} {m m' : Signature n} (k : Nat) : Prepared ps done m →
      (ps.setPublicParts k).result m = .ok m' → Prepared ps (k :: done) m'

def RowOf (m : Signature n) (done : List Nat) (k : Nat) (p : Placement) : Prop :=
  (k ∈ done → p.surrogate < n ∧ p.firstPublic + p.component.publics ≤ n ∧
    ∀ l, m.cost? p.surrogate l = p.surrogateRow l) ∧
    (k ∉ done → ∀ l, m.cost? p.surrogate l = none)

theorem Prepared.rowOf {done : List Nat} (h : ps.Prepared done m) (hexact : ∀ p ∈ ps.toList, p.component.Exact)
    (hdistinct : (ps.toList.map (·.surrogate)).Nodup) : ∀ k p, ps[k]? = some p → RowOf m done k p := by
  induction h with
  | start hempty =>
    intro k p hp
    exact ⟨fun hk => (nomatch hk), fun _ => hempty p (Array.mem_toList_iff.mpr (Array.mem_of_getElem? hp))⟩
  | @insert done m m' i j x _ hother hput ih =>
    intro k p hp
    have hi := hother p (Array.mem_toList_iff.mpr (Array.mem_of_getElem? hp))
    have hrow : ∀ l, m'.cost? p.surrogate l = m.cost? p.surrogate l := by
      intro l
      rw [(Signature.insert_spec m i j x).answer hput, if_neg fun h => hi h.1]
    unfold RowOf
    simp only [hrow]
    exact ih k p hp
  | @publics done m m' k' _ hput ih =>
    intro k p hp
    obtain ⟨p', hp', hsurrogate, hlast, hover⟩ := (setPublicParts_spec hexact k' m).answer hput
    by_cases hk : k = k'
    · subst hk
      rw [hp] at hp'
      cases hp'
      refine ⟨fun _ => ⟨hsurrogate, hlast, fun l => ?_⟩, fun hno => absurd List.mem_cons_self hno⟩
      rw [hover, if_pos rfl]
      by_cases hdone : k ∈ done
      · rw [((ih k p hp).1 hdone).2.2 l, Option.or_self]
      · rw [(ih k p hp).2 hdone l, Option.or_none]
    · have hne : p.surrogate ≠ p'.surrogate := by
        intro heq
        have hlt : k < (ps.toList.map (·.surrogate)).length := by
          simpa using (Array.getElem?_eq_some_iff.mp hp).1
        refine hk ((List.getElem?_inj hlt hdistinct).mp ?_)
        simp [hp, hp', heq]
      have hrow : ∀ l, m'.cost? p.surrogate l = m.cost? p.surrogate l := fun l => by rw [hover, if_neg hne]
      unfold RowOf
      simp only [hrow, List.mem_cons, hk, false_or]
      exact ih k p hp

structure Placed (ps : Placements) (m : Signature n) : Prop where
  exact : ∀ p ∈ ps.toList, p.component.Exact
  distinct : (ps.toList.map (·.surrogate)).Nodup
  inRange : ∀ p ∈ ps.toList, p.surrogate < n ∧ p.firstPublic + p.component.publics ≤ n
  surrogate : ∀ p ∈ ps.toList, ∀ l, m.cost? p.surrogate l = p.surrogateRow l

theorem Prepared.placed {done : List Nat} (h : ps.Prepared done m) (hexact : ∀ p ∈ ps.toList, p.component.Exact)
    (hdistinct : (ps.toList.map (·.surrogate)).Nodup) (hall : ∀ k < ps.size, k ∈ done) : ps.Placed m := by
  have hrow : ∀ p ∈ ps.toList, p.surrogate < n ∧ p.firstPublic + p.component.publics ≤ n ∧
      ∀ l, m.cost? p.surrogate l = p.surrogateRow l := by
    intro p hp
    obtain ⟨k, hk, rfl⟩ := Array.getElem_of_mem (Array.mem_toList_iff.mp hp)
    exact (h.rowOf hexact hdistinct k _ (Array.getElem?_eq_getElem hk)).1 (hall k hk)
  exact ⟨hexact, hdistinct, fun p hp => ⟨(hrow p hp).1, (hrow p hp).2.1⟩, fun p hp => (hrow p hp).2.2⟩

end Placements

end SigmaMethod
