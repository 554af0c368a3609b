import Mathlib.Data.List.FinRange
import SigmaMethod.Proofs.Signature.Writes

/-!
# Calls that succeed

A write succeeds inside the matrix, at a derivative order that has a cost; `append` also wants its position to come
after all entries, which it finds out from the last row in use and the last entry of its own row.
-/

namespace SigmaMethod

namespace Signature

variable {n : Nat} {m : Signature n} {i j : Nat} {x derivative : Int}

theorem inBound_eq_ok_iff {space : IndexSpace} {r : Fin n} : inBound space i n = .ok r ↔ i = r.val := by
  unfold inBound
  by_cases hi : i < n
  · simp [hi, Fin.ext_iff]
  · simp [hi]
    omega

theorem insert_eq_ok_iff : ((insert i j x).apply m).1 = .ok () ↔ i < n ∧ j < n := by
  simp only [insert, Update.liftM_bind_eq_ok_iff, inBound_eq_ok_iff, Update.apply_modify]
  constructor
  · intro h
    obtain ⟨r, rfl, s, rfl, -⟩ := h
    exact ⟨r.isLt, s.isLt⟩
  · intro h
    exact ⟨⟨i, h.1⟩, rfl, ⟨j, h.2⟩, rfl, trivial⟩

def Incident (n i j : Nat) (derivative : Int) : Prop := i < n ∧ j < n ∧ 0 ≤ derivative ∧ InRange (-derivative)

theorem setDerivative_eq_ok_iff :
    ((setDerivative i j derivative).apply m).1 = .ok () ↔ Incident n i j derivative := by
  simp only [setDerivative, Update.liftM_bind_eq_ok_iff, derivativeCost_eq_ok_iff, insert_eq_ok_iff, Incident]
  constructor
  · intro h
    obtain ⟨_, ⟨h₀, hrange, -⟩, hi, hj⟩ := h
    exact ⟨hi, hj, h₀, hrange⟩
  · intro h
    obtain ⟨hi, hj, h₀, hrange⟩ := h
    exact ⟨_, ⟨h₀, hrange, rfl⟩, hi, hj⟩

theorem extend_eq_ok_iff {es : List Incidence} : ((extend es).apply m).1 = .ok () ↔
    ∀ e ∈ es, Incident n e.equation e.unknown e.derivative := by
  induction es generalizing m with
  | nil => simp [extend]
  | cons e es ih =>
    rw [extend, Update.apply_bind, List.forall_mem_cons, ← setDerivative_eq_ok_iff (m := m)]
    cases h : (setDerivative e.equation e.unknown e.derivative).apply m with
    | mk outcome t => cases outcome <;> simp [ih]

/-! ## Appending -/

theorem le_of_getLast? {α : Type} {rank : α → Nat} {entries : List α} {a b : α}
    (h : entries.Pairwise fun a b => rank a < rank b) (ha : entries.getLast? = some a) (hb : b ∈ entries) :
    rank b ≤ rank a := by
  obtain ⟨init, rfl⟩ := List.getLast?_eq_some_iff.mp ha
  rcases List.mem_append.mp hb with hb | hb
  · exact Nat.le_of_lt ((List.pairwise_append.mp h).2.2 b hb a (by simp))
  · obtain rfl := List.mem_singleton.mp hb
    exact Nat.le_refl _

theorem isEmpty_eq_false_iff {r : Fin n} : (m.rows.get r).isEmpty = false ↔ ∃ l x, m.get r l = some x := by
  unfold SortedMap.isEmpty
  rw [List.isEmpty_eq_false_iff_exists_mem]
  simp [get, SortedMap.find?_eq_some_iff]

theorem usedRows_le_iff {i : Fin n} : m.usedRows ≤ i + 1 ↔ ∀ k l x, m.get k l = some x → k ≤ i := by
  have hfilter : ∀ k, k ∈ (List.finRange n).filter (fun i => !(m.rows.get i).isEmpty) ↔ ∃ l x, m.get k l = some x := by
    intro k
    rw [← isEmpty_eq_false_iff]
    simp
  have hincreasing : ((List.finRange n).filter fun i => !(m.rows.get i).isEmpty).Pairwise fun k l => k.val < l.val :=
    (List.pairwise_lt_finRange n).filter _
  unfold usedRows
  cases hlast : ((List.finRange n).filter fun i => !(m.rows.get i).isEmpty).getLast? with
  | none =>
    rw [List.getLast?_eq_none_iff] at hlast
    simp only [hlast, List.not_mem_nil, false_iff] at hfilter
    simp only [Nat.zero_le, true_iff]
    exact fun k l x hx => absurd ⟨l, x, hx⟩ (hfilter k)
  | some k =>
    simp only [Nat.add_le_add_iff_right, ← Fin.le_def]
    constructor
    · intro hk r l x hx
      exact Nat.le_trans (le_of_getLast? hincreasing hlast ((hfilter r).mpr ⟨l, x, hx⟩)) hk
    · intro h
      obtain ⟨l, x, hx⟩ := (hfilter k).mp (List.mem_of_getLast? hlast)
      exact h k l x hx

theorem checkAppend_eq_ok_iff {i j : Fin n} :
    m.checkAppend i j = .ok () ↔ ∀ k l x, m.get k l = some x → k < i ∨ k = i ∧ l < j := by
  have hsplit : (∀ k l x, m.get k l = some x → k < i ∨ k = i ∧ l < j) ↔
      (∀ k l x, m.get k l = some x → k ≤ i) ∧ ∀ l x, m.get i l = some x → l < j := by
    constructor
    · intro h
      exact ⟨fun k l x hx => (h k l x hx).elim Fin.le_of_lt fun h => Fin.le_of_eq h.1,
        fun l x hx => ((h i l x hx).resolve_left (Fin.lt_irrefl i)).2⟩
    · intro h k l x hx
      cases Fin.lt_or_eq_of_le (h.1 k l x hx) with
      | inl hlt => exact .inl hlt
      | inr heq => exact .inr ⟨heq, h.2 l x (heq ▸ hx)⟩
  unfold checkAppend
  rw [ite_refuse_eq_ok_iff, Nat.not_lt, usedRows_le_iff, hsplit, and_congr_right_iff]
  intro _
  simp only [get, SortedMap.find?_eq_some_iff]
  split
  · rename_i last y hlast
    simp only [ite_refuse_eq_ok_iff, and_true]
    constructor
    · intro h l x hx
      have hle := le_of_getLast? (m.rows.get i).increasing hlast hx
      exact Nat.lt_of_le_of_lt hle (Nat.not_le.mp h)
    · intro h
      exact Nat.not_le.mpr (h last y (List.mem_of_getLast? hlast))
  · rename_i hnone
    rw [List.getLast?_eq_none_iff] at hnone
    simp [hnone]

theorem append_eq_ok_iff : ((append i j derivative).apply m).1 = .ok () ↔
    Incident n i j derivative ∧ ∀ k l x, m.cost? k l = some x → k < i ∨ k = i ∧ l < j := by
  simp only [append, Update.liftM_bind_eq_ok_iff, inBound_eq_ok_iff, Update.apply_getThe_bind, Update.apply_set,
    derivativeCost_eq_ok_iff, Incident]
  constructor
  · intro h
    obtain ⟨r, rfl, s, rfl, _, hcheck, _, ⟨h₀, hrange, -⟩, -⟩ := h
    refine ⟨⟨r.isLt, s.isLt, h₀, hrange⟩, fun k l x hx => ?_⟩
    obtain ⟨hk, hl, hget⟩ := cost?_eq_some_iff.mp hx
    simpa [Fin.ext_iff, Fin.lt_def] using checkAppend_eq_ok_iff.mp hcheck ⟨k, hk⟩ ⟨l, hl⟩ x hget
  · intro h
    obtain ⟨⟨hi, hj, h₀, hrange⟩, hbefore⟩ := h
    refine ⟨⟨i, hi⟩, rfl, ⟨j, hj⟩, rfl, (), ?_, _, ⟨h₀, hrange, rfl⟩, trivial⟩
    rw [checkAppend_eq_ok_iff]
    intro k l x hx
    simpa [Fin.ext_iff, Fin.lt_def] using hbefore k l x (by rw [cost?_eq, hx])

end Signature

/-! ## Incidences that are all accepted -/

def Incidence.entry (e : Incidence) : Nat × Nat × Int := (e.equation, e.unknown, -e.derivative)

theorem Incidence.mem_map_entry {es : List Incidence} {k l : Nat} {x : Int} :
    (k, l, x) ∈ es.map entry ↔ ⟨k, l, -x⟩ ∈ es := by
  simp only [List.mem_map, entry, Prod.mk.injEq]
  constructor
  · rintro ⟨⟨k, l, y⟩, hmem, rfl, rfl, rfl⟩
    rwa [Int.neg_neg]
  · exact fun hmem => ⟨_, hmem, rfl, rfl, Int.neg_neg x⟩

namespace Signature

variable {n : Nat} {m : Signature n} {es : List Incidence}

theorem result_extend (es : List Incidence) (m : Signature n) : (extend es).result m =
    es.foldlM (fun t e => (setDerivative e.equation e.unknown e.derivative).result t) m := by
  induction es generalizing m with
  | nil => rfl
  | cons e es ih =>
    rw [extend, Update.result_bind_const, List.foldlM_cons]
    exact congrArg _ (funext ih)

theorem extend_adds (hfun : Functional (es.map Incidence.entry))
    (hfresh : ∀ e ∈ es, m.cost? e.equation e.unknown = none) :
    Delivers ((extend es).result m) (fun t => m.Adds t (es.map Incidence.entry)) (fun _ => True) := by
  rw [result_extend]
  refine Delivers.foldlM_done (I := fun done (t : Signature n) => m.Adds t (done.map Incidence.entry)) (.refl m) ?_
  intro done e t hdone ht
  have hmem : e ∈ es := hdone.subset (by simp)
  refine (setDerivative_spec t e.equation e.unknown e.derivative).imp fun t' hput => ?_
  rw [List.map_append]
  refine ht.insert (hfresh e hmem) (fun y hy => ?_) hput
  have hsub : done.map Incidence.entry ⊆ es.map Incidence.entry :=
    List.map_subset _ fun e he => hdone.subset (List.mem_append_left _ he)
  exact hfun _ _ _ _ (hsub hy) (List.mem_map_of_mem hmem)

theorem exists_extend (hall : ∀ e ∈ es, Incident n e.equation e.unknown e.derivative)
    (hfun : Functional (es.map Incidence.entry)) (hfresh : ∀ e ∈ es, m.cost? e.equation e.unknown = none) :
    ∃ t, (extend es).result m = .ok t ∧ m.Adds t (es.map Incidence.entry) := by
  have hresult := Update.result_eq_ok_iff.mpr ⟨(), Prod.ext (extend_eq_ok_iff (m := m).mpr hall) rfl⟩
  exact ⟨_, hresult, (extend_adds hfun hfresh).answer hresult⟩

end Signature

end SigmaMethod
