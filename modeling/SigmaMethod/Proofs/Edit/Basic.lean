import SigmaMethod.Edit.Basic
import SigmaMethod.Proofs.Fits
import SigmaMethod.Proofs.Matching.Restart

/-!
# Edits that can be built

A command makes one step or, if it is refused, none, and what all steps keep is true of every edit that commands have
built: its deletions are increasing, and its new equations name new unknowns that exist and derivative orders that have
a cost. `validate` accepts it where its indices exist and the edited problem is square again.
-/

namespace SigmaMethod

variable {k i : Nat} {ks l : List Nat}

theorem insertNew_spec : ∀ {ks l : List Nat}, ks.Pairwise (· < ·) → insertNew k ks = some l →
    l.Pairwise (· < ·) ∧ ∀ i, i ∈ l ↔ i = k ∨ i ∈ ks := by
  intro ks
  induction ks with
  | nil =>
    intro l _ h
    cases h
    exact ⟨List.pairwise_singleton .., fun i => by simp⟩
  | cons a ks ih =>
    intro l hs h
    obtain ⟨ha, hks⟩ := List.pairwise_cons.mp hs
    unfold insertNew at h
    split at h
    · rename_i hk
      cases h
      refine ⟨List.pairwise_cons.mpr ⟨fun b hb => ?_, hs⟩, fun i => by simp⟩
      rcases List.mem_cons.mp hb with rfl | hb
      · exact hk
      · exact Nat.lt_trans hk (ha b hb)
    · split at h
      · cases h
      · rename_i hk hne
        obtain ⟨l', hl', rfl⟩ := Option.map_eq_some_iff.mp h
        obtain ⟨hsorted, hmem⟩ := ih hks hl'
        refine ⟨List.pairwise_cons.mpr ⟨fun b hb => ?_, hsorted⟩, fun i => ?_⟩
        · rcases (hmem b).mp hb with rfl | hb
          · omega
          · exact ha b hb
        · rw [List.mem_cons, List.mem_cons, hmem]
          exact or_left_comm

namespace Edit

open Relation (ReflGen)

variable {e : Edit}

/-- An edit that commands have built from the empty one, whether each of them succeeded or not. -/
inductive Built : Edit → Prop
  | empty : Built .empty
  | removeEquation {e : Edit} (i : Nat) : Built e → Built ((removeEquation i).apply e).2
  | removeUnknown {e : Edit} (j : Nat) : Built e → Built ((removeUnknown j).apply e).2
  | addEquation {e : Edit} : Built e → Built (addEquation.apply e).2
  | addUnknown {e : Edit} : Built e → Built (addUnknown.apply e).2
  | setExisting {e : Edit} (k j : Nat) (derivative : Int) : Built e → Built ((setExisting k j derivative).apply e).2
  | setNew {e : Edit} (k x : Nat) (derivative : Int) : Built e → Built ((setNew k x derivative).apply e).2

inductive Step (e : Edit) : Edit → Prop
  | removeEquation {i : Nat} {l : List Nat} : insertNew i e.deletedEquations = some l →
      Step e { e with deletedEquations := l }
  | removeUnknown {j : Nat} {l : List Nat} : e.references j = false → insertNew j e.deletedUnknowns = some l →
      Step e { e with deletedUnknowns := l }
  | addEquation : Step e { e with newRows := e.newRows.push .empty }
  | addUnknown : Step e { e with newUnknowns := e.newUnknowns + 1 }
  | setExisting {k j : Nat} {x : Int} (hk : k < e.newRows.size) : j ∉ e.deletedUnknowns → 0 ≤ x ∧ InRange (-x) →
      Step e { e with newRows := e.newRows.set k { e.newRows[k] with existing := e.newRows[k].existing.put j x } }
  | setNew {k y : Nat} {x : Int} (hk : k < e.newRows.size) : y < e.newUnknowns → 0 ≤ x ∧ InRange (-x) →
      Step e { e with newRows := e.newRows.set k { e.newRows[k] with added := e.newRows[k].added.put y x } }

theorem removeEquation_steps (e : Edit) (i : Nat) : ReflGen Step e ((removeEquation i).apply e).2 := by
  unfold removeEquation
  rw [Update.apply_get_bind]
  cases hi : insertNew i e.deletedEquations with
  | some l => exact .single (.removeEquation hi)
  | none => exact .refl

theorem removeUnknown_steps (e : Edit) (j : Nat) : ReflGen Step e ((removeUnknown j).apply e).2 := by
  unfold removeUnknown
  rw [Update.apply_get_bind]
  cases hreferences : e.references j with
  | true => exact .refl
  | false =>
    cases hj : insertNew j e.deletedUnknowns with
    | some l => exact .single (.removeUnknown hreferences hj)
    | none => exact .refl

theorem modifyRow_steps {f : NewRow → NewRow}
    (h : ∀ k (hk : k < e.newRows.size), e.Step { e with newRows := e.newRows.set k (f e.newRows[k]) }) :
    ReflGen Step e ((modifyRow k f).apply e).2 := by
  unfold modifyRow
  rw [Update.apply_get_bind]
  exact Update.liftM_bind_leaves .refl fun k _ => .single (h k k.isLt)

theorem setExisting_steps (e : Edit) (k j : Nat) (x : Int) : ReflGen Step e ((setExisting k j x).apply e).2 := by
  unfold setExisting
  rw [Update.apply_get_bind]
  by_cases hj : j ∈ e.deletedUnknowns
  · rw [if_pos hj, Update.apply_throw_bind]
  · rw [if_neg hj]
    refine Update.liftM_bind_leaves .refl fun _ hcost => modifyRow_steps fun k hk => .setExisting hk hj ?_
    obtain ⟨h₀, hrange, -⟩ := Signature.derivativeCost_eq_ok_iff.mp hcost
    exact ⟨h₀, hrange⟩

theorem setNew_steps (e : Edit) (k y : Nat) (x : Int) : ReflGen Step e ((setNew k y x).apply e).2 := by
  unfold setNew
  rw [Update.apply_get_bind]
  refine Update.liftM_bind_leaves .refl fun _ hindex => Update.liftM_bind_leaves .refl fun _ hcost => ?_
  obtain ⟨h₀, hrange, -⟩ := Signature.derivativeCost_eq_ok_iff.mp hcost
  exact modifyRow_steps fun k hk => .setNew hk (checkIndex_eq_ok_iff.mp hindex) ⟨h₀, hrange⟩

theorem Built.invariant {I : Edit → Prop} (hempty : I .empty)
    (hstep : ∀ e e' : Edit, e.Built → e.Step e' → I e → I e') (h : e.Built) : I e := by
  have hcommand : ∀ {e e' : Edit}, ReflGen Step e e' → e.Built → I e → I e' := by
    intro e e' h he hi
    cases h with
    | refl => exact hi
    | single h => exact hstep e e' he h hi
  induction h with
  | empty => exact hempty
  | removeEquation i he ih => exact hcommand (removeEquation_steps _ i) he ih
  | removeUnknown j he ih => exact hcommand (removeUnknown_steps _ j) he ih
  | addEquation he ih => exact hcommand (.single .addEquation) he ih
  | addUnknown he ih => exact hcommand (.single .addUnknown) he ih
  | setExisting k j x he ih => exact hcommand (setExisting_steps _ k j x) he ih
  | setNew k y x he ih => exact hcommand (setNew_steps _ k y x) he ih

structure Sorted (e : Edit) : Prop where
  equations : e.deletedEquations.Pairwise (· < ·)
  unknowns : e.deletedUnknowns.Pairwise (· < ·)

theorem Built.sorted (h : e.Built) : e.Sorted := by
  refine h.invariant ⟨.nil, .nil⟩ fun e e' _ hstep hs => ?_
  cases hstep with
  | removeEquation hi => exact ⟨(insertNew_spec hs.equations hi).1, hs.unknowns⟩
  | removeUnknown _ hj => exact ⟨hs.equations, (insertNew_spec hs.unknowns hj).1⟩
  | addEquation => exact ⟨hs.equations, hs.unknowns⟩
  | addUnknown => exact ⟨hs.equations, hs.unknowns⟩
  | setExisting => exact ⟨hs.equations, hs.unknowns⟩
  | setNew => exact ⟨hs.equations, hs.unknowns⟩

/-! ## New equations -/

structure RowSound (added : Nat) (r : NewRow) : Prop where
  existing : ∀ j x, r.existing.find? j = some x → 0 ≤ x ∧ InRange (-x)
  added : ∀ y x, r.added.find? y = some x → y < added ∧ 0 ≤ x ∧ InRange (-x)

theorem mem_of_mem_push {rows : Array NewRow} {r r' : NewRow} (h : r ∈ (rows.push r').toList) :
    r ∈ rows.toList ∨ r = r' := by
  rwa [Array.toList_push, List.mem_append, List.mem_singleton] at h

theorem mem_of_mem_set {rows : Array NewRow} {r r' : NewRow} (hk : k < rows.size) (h : r ∈ (rows.set k r').toList) :
    r ∈ rows.toList ∨ r = r' := by
  rw [Array.toList_set] at h
  exact List.mem_or_eq_of_mem_set h

def Sound (e : Edit) : Prop := ∀ r ∈ e.newRows.toList, RowSound e.newUnknowns r

namespace RowSound

variable {added : Nat} {r : NewRow} {x : Int}

theorem setExisting (h : RowSound added r) {j : Nat} (hx : 0 ≤ x ∧ InRange (-x)) :
    RowSound added { r with existing := r.existing.put j x } where
  existing k y hy := by
    rw [SortedMap.find?_put] at hy
    split at hy
    · cases hy
      exact hx
    · exact h.existing k y hy
  added := h.added

theorem setNew (h : RowSound added r) {y : Nat} (hx : y < added ∧ 0 ≤ x ∧ InRange (-x)) :
    RowSound added { r with added := r.added.put y x } where
  existing := h.existing
  added k z hz := by
    rw [SortedMap.find?_put] at hz
    split at hz
    · cases hz
      subst ‹k = y›
      exact hx
    · exact h.added k z hz

end RowSound

theorem Built.sound (h : e.Built) : e.Sound := by
  refine h.invariant (fun r hr => nomatch hr) fun e e' _ hstep hs => ?_
  cases hstep with
  | removeEquation => exact hs
  | removeUnknown => exact hs
  | addEquation =>
    intro r hr
    rcases mem_of_mem_push hr with hr | rfl
    · exact hs r hr
    · exact ⟨fun j x hx => (nomatch hx), fun y x hx => (nomatch hx)⟩
  | addUnknown =>
    intro r hr
    exact ⟨(hs r hr).existing, fun y x hx => ((hs r hr).added y x hx).imp_left Nat.lt_succ_of_lt⟩
  | setExisting hk _ hx =>
    intro r hr
    rcases mem_of_mem_set hk hr with hr | rfl
    · exact hs r hr
    · exact (hs _ (Array.getElem_mem_toList hk)).setExisting hx
  | setNew hk hy hx =>
    intro r hr
    rcases mem_of_mem_set hk hr with hr | rfl
    · exact hs r hr
    · exact (hs _ (Array.getElem_mem_toList hk)).setNew ⟨hy, hx⟩

/-! ## Edits that fit a problem -/

structure Fits (e : Edit) (n : Nat) : Prop where
  equations : ∀ i ∈ e.deletedEquations, i < n
  unknowns : ∀ j ∈ e.deletedUnknowns, j < n
  references : ∀ r ∈ e.newRows.toList, ∀ j ∈ r.existing.keys, j < n ∧ j ∉ e.deletedUnknowns
  square : (n - e.deletedEquations.length) + e.newRows.size = (n - e.deletedUnknowns.length) + e.newUnknowns

inductive Names (e : Edit) : IndexSpace → Nat → Prop
  | equation {i : Nat} : i ∈ e.deletedEquations → Names e .equation i
  | unknown {j : Nat} : j ∈ e.deletedUnknowns → Names e .variable j
  | reference {r : NewRow} {j : Nat} : r ∈ e.newRows.toList → j ∈ r.existing.keys → Names e .variable j

def InBounds (e : Edit) (n : Nat) : Prop := ∀ space i, e.Names space i → i < n

theorem inBounds_iff {n : Nat} : e.InBounds n ↔ (∀ i ∈ e.deletedEquations, i < n) ∧
    (∀ j ∈ e.deletedUnknowns, j < n) ∧ ∀ r ∈ e.newRows.toList, ∀ j ∈ r.existing.keys, j < n := by
  constructor
  · exact fun h => ⟨fun i hi => h _ i (.equation hi), fun j hj => h _ j (.unknown hj),
      fun r hr j hj => h _ j (.reference hr hj)⟩
  · rintro ⟨hequations, hunknowns, hreferences⟩ space i hi
    cases hi with
    | equation hi => exact hequations i hi
    | unknown hi => exact hunknowns i hi
    | reference hr hi => exact hreferences _ hr i hi

def equationsLeft (e : Edit) (n : Nat) : Nat := n - e.deletedEquations.length + e.newRows.size

def unknownsLeft (e : Edit) (n : Nat) : Nat := n - e.deletedUnknowns.length + e.newUnknowns

inductive Rejects (e : Edit) (n : Nat) : Refusal → Prop
  | index {space : IndexSpace} {i : Nat} : e.Names space i → n ≤ i → Rejects e n (.invalidIndex space i n)
  | reference {r : NewRow} {j : Nat} : r ∈ e.newRows.toList → j ∈ r.existing.keys → j ∈ e.deletedUnknowns →
      Rejects e n (.invalidEdit (.deletedReference j))
  | notSquare : e.InBounds n → e.equationsLeft n ≠ e.unknownsLeft n →
      Rejects e n (.invalidEdit (.notSquare (e.equationsLeft n) (e.unknownsLeft n)))

theorem Fits.inBounds {n : Nat} (h : e.Fits n) : e.InBounds n :=
  inBounds_iff.mpr ⟨h.equations, h.unknowns, fun r hr j hj => (h.references r hr j hj).1⟩

theorem Rejects.not_fits {n : Nat} {r : Refusal} (h : e.Rejects n r) : ¬ e.Fits n := by
  intro hfits
  cases h with
  | index hnames hle => exact absurd (hfits.inBounds _ _ hnames) (Nat.not_lt.mpr hle)
  | reference hr hj hdeleted => exact (hfits.references _ hr _ hj).2 hdeleted
  | notSquare _ hne => exact hne hfits.square

/-- What is accepted fits, and its lines can be counted; what is refused names a line that is not there, or one that the
edit deletes, or is not square. -/
theorem validate_spec (e : Edit) (n : Nat) :
    Delivers (e.validate n) (fun _ => e.Fits n ∧ e.equationsLeft n < 18446744073709551616) (e.Rejects n) := by
  unfold validate
  refine (Delivers.forM (G := fun i => i < n) fun i hi => .checkIndex id fun hno => ?_).bind fun _ hequations => ?_
  · exact .index (.equation hi) (Nat.not_lt.mp hno)
  refine (Delivers.forM (G := fun j => j < n) fun j hj => .checkIndex id fun hno => ?_).bind fun _ hunknowns => ?_
  · exact .index (.unknown hj) (Nat.not_lt.mp hno)
  refine (Delivers.forM (G := fun r : NewRow => ∀ j ∈ r.existing.keys, j < n ∧ j ∉ e.deletedUnknowns)
    fun r hr => .forM fun j hj => ?_).bind fun _ hreferences => ?_
  · refine (Delivers.checkIndex (P := fun _ => j < n) id fun hno => ?_).bind fun _ hindex => ?_
    · exact .index (.reference hr hj) (Nat.not_lt.mp hno)
    · split
      · exact .refuse (.reference hr hj ‹_›)
      · exact .pure ⟨hindex, ‹_›⟩
  refine .bind (.indexSub fun _ => rfl) fun keptRows hrows => ?_
  refine .bind (P := fun rows => rows = keptRows + e.newRows.size ∧ rows < 18446744073709551616) ?_
    fun rows hrows' => ?_
  · exact .fitIndex_lt
  refine .bind (.indexSub fun _ => rfl) fun keptColumns hcolumns => .bind (.fitIndex rfl) fun columns hcolumns' => ?_
  subst hrows hcolumns hcolumns'
  obtain ⟨rfl, hcounted⟩ := hrows'
  split
  · have hnamed : ∀ r ∈ e.newRows.toList, ∀ j ∈ r.existing.keys, j < n := fun r hr j hj => (hreferences r hr j hj).1
    exact .refuse (.notSquare (inBounds_iff.mpr ⟨hequations, hunknowns, hnamed⟩) ‹_›)
  · exact .pure ⟨⟨hequations, hunknowns, hreferences, Decidable.not_not.mp ‹_›⟩, hcounted⟩

theorem length_le_of_increasing {n : Nat} (hs : l.Pairwise (· < ·)) (hb : ∀ i ∈ l, i < n) : l.length ≤ n := by
  have hsub := List.subperm_of_subset (hs.imp Nat.ne_of_lt) fun i hi => List.mem_range.mpr (hb i hi)
  simpa using hsub.length_le

theorem Sorted.validate_fits {n : Nat} (he : e.Sorted) (hcounted : e.InBounds n →
    e.equationsLeft n < 18446744073709551616 ∧ e.unknownsLeft n < 18446744073709551616) :
    SigmaMethod.Fits (e.validate n) fun _ => True := by
  have hcheck : ∀ (space : IndexSpace) (l : List Nat),
      SigmaMethod.Fits (l.forM fun i => checkIndex space i n) fun _ => ∀ i ∈ l, i < n := fun space l =>
    ((Fits.forM fun i _ => .checkIndex trivial).and (Delivers.forM (F := fun _ => True) (G := fun i => i < n)
      fun i _ => .checkIndex id fun _ => trivial)).imp fun _ h => h.2
  unfold validate
  refine (hcheck _ _).bind fun _ hrows => (hcheck _ _).bind fun _ hcolumns => ?_
  refine ((Fits.forM fun r _ => .forM fun j _ => ?_).and (Delivers.forM (F := fun _ => True)
    (G := fun r : NewRow => ∀ j ∈ r.existing.keys, j < n) fun r _ => .forM fun j _ => ?_)).bind fun _ ⟨_, hnamed⟩ => ?_
  · refine (Fits.checkIndex trivial).bind fun _ (_ : True) => ?_
    split
    · exact .refuse
    · exact .pure trivial
  · refine (Delivers.checkIndex (P := fun _ => j < n) id fun _ => trivial).bind fun _ hj => ?_
    split
    · exact .refuse trivial
    · exact .pure hj
  obtain ⟨hequations, hunknowns⟩ := hcounted (inBounds_iff.mpr ⟨hrows, hcolumns, hnamed⟩)
  refine (Fits.indexSub (length_le_of_increasing he.equations hrows) rfl).bind fun keptRows hkept => ?_
  subst hkept
  refine (Fits.fitIndex (P := fun _ => True) hequations trivial).bind fun _ _ => ?_
  refine (Fits.indexSub (length_le_of_increasing he.unknowns hcolumns) rfl).bind fun keptColumns hkept => ?_
  subst hkept
  refine (Fits.fitIndex (P := fun _ => True) hunknowns trivial).bind fun _ _ => ?_
  split
  · exact .refuse
  · exact .pure trivial

end Edit

end SigmaMethod
