import SigmaMethod.Proofs.Fits
import SigmaMethod.Proofs.Update
import SigmaMethod.Signature.Query

/-!
# Writes by plain indices

What the commands on a signature matrix write, in terms of `cost?`.
-/

namespace SigmaMethod

namespace Signature

variable {n : Nat} {m t : Signature n} {i j k l : Nat} {x : Int}

theorem cost?_eq (m : Signature n) (i j : Fin n) : m.cost? i j = m.get i j := by simp [cost?]

theorem cost?_eq_some_iff : m.cost? i j = some x ↔ ∃ (hi : i < n) (hj : j < n), m.get ⟨i, hi⟩ ⟨j, hj⟩ = some x := by
  unfold cost?
  by_cases hi : i < n <;> by_cases hj : j < n <;> simp [hi, hj]

@[simp] theorem cost?_empty : (empty n).cost? i j = none := by simp [cost?]

theorem cost?_put (m : Signature n) (i j : Fin n) (x : Int) (k l : Nat) :
    (m.put i j x).cost? k l = if k = i ∧ l = j then some x else m.cost? k l := by
  unfold cost?
  by_cases hk : k < n <;> by_cases hl : l < n
  · simp [hk, hl, get_put, Fin.ext_iff]
  · have : l ≠ j := fun e => hl (e ▸ j.isLt)
    simp [hl, this]
  · have : k ≠ i := fun e => hk (e ▸ i.isLt)
    simp [hk, this]
  · have : k ≠ i := fun e => hk (e ▸ i.isLt)
    simp [hk, this]

theorem mem_row_iff_cost? : (j, x) ∈ m.row i ↔ m.cost? i j = some x := by
  rw [cost?_eq_some_iff]
  unfold row
  by_cases hi : i < n
  · simp only [hi, dite_true, List.mem_map, exists_true_left]
    constructor
    · rintro ⟨⟨l, z⟩, hmem, he⟩
      cases he
      exact ⟨l.isLt, SortedMap.find?_eq_some_iff.mpr hmem⟩
    · rintro ⟨hj, hget⟩
      exact ⟨(⟨j, hj⟩, x), SortedMap.find?_eq_some_iff.mp hget, rfl⟩
  · simp [hi]

theorem inBound_spec {space : IndexSpace} :
    Delivers (inBound space i n) (fun k => k.val = i) fun _ => ¬ i < n := by
  unfold inBound
  split
  · exact .ok rfl
  · exact .refuse ‹_›

theorem insert_spec (m : Signature n) (i j : Nat) (x : Int) :
    Delivers ((insert i j x).result m) (fun t => ∀ k l, t.cost? k l = if k = i ∧ l = j then some x else m.cost? k l)
      (fun _ => ¬ (i < n ∧ j < n)) := by
  unfold insert
  simp only [Update.result_liftM_bind, Update.result_modify]
  refine (inBound_spec.mono (fun _ h => h) fun _ h hij => h hij.1).bind fun r hr => ?_
  refine (inBound_spec.mono (fun _ h => h) fun _ h hij => h hij.2).bind fun s hs => .ok fun k l => ?_
  rw [cost?_put, hr, hs]

theorem insert_succeeds (t : Signature n) (x : Int) (hi : i < n) (hj : j < n) :
    Succeeds ((insert i j x).result t)
      fun t' => ∀ k l, t'.cost? k l = if k = i ∧ l = j then some x else t.cost? k l := by
  unfold insert
  simp only [Update.result_liftM_bind, Update.result_modify, inBound, dif_pos hi, dif_pos hj, ok_bind]
  exact .ok fun k l => cost?_put t ⟨i, hi⟩ ⟨j, hj⟩ x k l

def Adds (m t : Signature n) (es : List (Nat × Nat × Int)) : Prop :=
  ∀ k l x, t.cost? k l = some x ↔ m.cost? k l = some x ∨ (k, l, x) ∈ es

theorem Adds.refl (m : Signature n) : m.Adds m [] := fun k l x => by simp

theorem Adds.insert {t' : Signature n} {es : List (Nat × Nat × Int)} (h : m.Adds t es) (hfresh : m.cost? i j = none)
    (hsame : ∀ y, (i, j, y) ∈ es → y = x) (hput : ∀ k l, t'.cost? k l = if k = i ∧ l = j then some x else t.cost? k l) :
    m.Adds t' (es ++ [(i, j, x)]) := by
  intro k l y
  rw [hput, List.mem_append, List.mem_singleton, Prod.mk.injEq, Prod.mk.injEq]
  by_cases hkl : k = i ∧ l = j
  · obtain ⟨rfl, rfl⟩ := hkl
    rw [if_pos ⟨rfl, rfl⟩, hfresh, Option.some.injEq]
    constructor
    · exact fun hxy => .inr (.inr ⟨rfl, rfl, hxy.symm⟩)
    · rintro (hno | hold | ⟨-, -, hyx⟩)
      · cases hno
      · exact (hsame y hold).symm
      · exact hyx.symm
  · have hother : ¬ (k = i ∧ l = j ∧ y = x) := fun h => hkl ⟨h.1, h.2.1⟩
    rw [if_neg hkl, h, or_iff_left hother]

def Functional (es : List (Nat × Nat × Int)) : Prop := ∀ k l x y, (k, l, x) ∈ es → (k, l, y) ∈ es → x = y

theorem insertAll_spec {es : List (Nat × Nat × Int)} (hfun : Functional es)
    (hfresh : ∀ e ∈ es, m.cost? e.1 e.2.1 = none)
    (hrange : ∀ e ∈ es, e.1 < n ∧ e.2.1 < n) :
    Yields (es.foldlM (fun t (i, j, x) => (insert i j x).result t) m) fun t => m.Adds t es := by
  refine Delivers.foldlM_done (I := fun done (t : Signature n) => m.Adds t done) (.refl m) ?_
  rintro done ⟨i, j, x⟩ t hdone ht
  have hmem : (i, j, x) ∈ es := hdone.subset (by simp)
  refine (insert_spec t i j x).mono (fun t' hput => ?_) fun _ hout => hout (hrange _ hmem)
  exact ht.insert (hfresh _ hmem) (fun y hy => hfun i j y x (hdone.subset (List.mem_append_left _ hy)) hmem) hput

theorem setDerivative_spec (m : Signature n) (i j : Nat) (derivative : Int) :
    Delivers ((setDerivative i j derivative).result m)
      (fun t => ∀ k l, t.cost? k l = if k = i ∧ l = j then some (-derivative) else m.cost? k l) (fun _ => True) := by
  unfold setDerivative
  rw [Update.result_liftM_bind]
  refine Delivers.bind (P := (· = -derivative)) ?_ fun y hy => ?_
  · unfold derivativeCost
    split
    · exact .refuse trivial
    · exact .fit rfl
  · subst hy
    exact (insert_spec m i j _).mono (fun _ h => h) fun _ _ => trivial

theorem derivativeCost_eq_ok_iff {derivative cost : Int} :
    derivativeCost i j derivative = .ok cost ↔ 0 ≤ derivative ∧ InRange (-derivative) ∧ -derivative = cost := by
  simp [derivativeCost]

/-! ## Commands that store one cost -/

def Stores (u : Update (Signature n) Unit) (m : Signature n) (i j : Nat) (x : Int) : Prop :=
  match u.apply m with
  | (.ok _, t) => ∀ k l, t.cost? k l = if k = i ∧ l = j then some x else m.cost? k l
  | (.error _, t) => t = m

theorem Stores.liftM_bind {α : Type} {y : Outcome α} {f : α → Update (Signature n) Unit}
    (h : ∀ a, y = .ok a → Stores (f a) m i j x) : Stores (liftM y >>= f) m i j x := by
  unfold Stores
  rw [Update.apply_liftM_bind]
  cases y with
  | ok a => exact h a rfl
  | error e => rfl

theorem Stores.get_bind {f : Signature n → Update (Signature n) Unit} (h : Stores (f m) m i j x) :
    Stores (getThe (Signature n) >>= f) m i j x := h

theorem insert_stores (m : Signature n) (i j : Nat) (x : Int) : Stores (insert i j x) m i j x := by
  refine .liftM_bind fun r hr => .liftM_bind fun s hs => ?_
  have hr := inBound_spec.answer hr
  have hs := inBound_spec.answer hs
  intro k l
  rw [cost?_put, hr, hs]

theorem setDerivative_stores (m : Signature n) (i j : Nat) (derivative : Int) :
    Stores (setDerivative i j derivative) m i j (-derivative) := by
  refine .liftM_bind fun cost hcost => ?_
  obtain ⟨-, -, rfl⟩ := derivativeCost_eq_ok_iff.mp hcost
  exact insert_stores m i j (-derivative)

theorem append_stores (m : Signature n) (i j : Nat) (derivative : Int) :
    Stores (append i j derivative) m i j (-derivative) := by
  refine .liftM_bind fun r hr => .liftM_bind fun s hs => ?_
  have hr := inBound_spec.answer hr
  have hs := inBound_spec.answer hs
  refine .get_bind (.liftM_bind fun _ _ => .liftM_bind fun cost hcost => ?_)
  obtain ⟨-, -, rfl⟩ := derivativeCost_eq_ok_iff.mp hcost
  intro k l
  rw [cost?_put, hr, hs]

end Signature

end SigmaMethod
