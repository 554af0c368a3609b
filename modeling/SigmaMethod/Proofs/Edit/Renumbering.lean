import Mathlib.Data.Nat.Count
import SigmaMethod.Edit.Renumbering
import SigmaMethod.Proofs.Fits

/-!
# Renumbering counts what is left

The interval that holds an index shifts it by the number of deletions before it, so the new number of an index that is
left is the number of indices left before it. That is increasing, and onto.
-/

namespace SigmaMethod

namespace Renumbering

variable {r : Renumbering} {i j k bound : Nat} {deleted : List Nat}

/-! ## Intervals -/

structure Regular (r : Renumbering) : Prop where
  sorted : r.deleted.Pairwise (· < ·)
  bounded : ∀ k ∈ r.deleted, k < r.bound
  shiftAt : ∀ i, r.shiftAt i = some (r.deleted.countP (· < i))

theorem ofDeleted_spec (hs : deleted.Pairwise (· < ·)) (hb : ∀ k ∈ deleted, k < bound) :
    Yields (ofDeleted bound deleted) fun r => r.Regular ∧ r.bound = bound ∧ r.deleted = deleted := by
  unfold ofDeleted
  refine Delivers.bind (P := fun intervals => ∀ i, (intervals.find? fun x => x.1 ≤ i).map (·.2) =
    some (deleted.countP (· < i))) ?_ fun intervals h => .pure ⟨⟨hs, hb, h⟩, rfl, rfl⟩
  refine (Delivers.foldlM_done (I := fun done (intervals : List (Nat × Nat)) => intervals.length = done.length + 1 ∧
    ∀ i, (intervals.find? fun x => x.1 ≤ i).map (·.2) = some (done.countP (· < i))) ⟨rfl, fun i => by simp⟩ ?_).imp
    fun _ h => h.2
  intro done k intervals hdone ⟨hlength, hfind⟩
  have hbefore : ∀ x ∈ done, x < k := fun x hx =>
    (List.pairwise_append.mp (hs.sublist hdone.sublist)).2.2 x hx k (List.mem_singleton_self k)
  unfold addInterval
  refine .bind (.fitIndex rfl) fun first hfirst => .pure ⟨by simp [hlength], fun i => ?_⟩
  subst hfirst
  by_cases hk : k < i
  · have hall : done.countP (· < i) = done.length := List.countP_eq_length.mpr fun x hx => by
      have := hbefore x hx
      simp only [decide_eq_true_eq]
      omega
    rw [List.find?_cons_of_pos (by simpa [Nat.succ_le_iff] using hk), List.countP_append, hall]
    simp [hlength, hk]
  · rw [List.find?_cons_of_neg (by simpa [Nat.lt_succ_iff] using hk), hfind i, List.countP_append]
    simp [hk]

/-- The first index behind a deletion is an index or the bound, so it fits if the bound does. -/
theorem ofDeleted_succeeds (hs : deleted.Pairwise (· < ·)) (hb : ∀ k ∈ deleted, k < bound)
    (hbound : bound < 18446744073709551616) :
    Succeeds (ofDeleted bound deleted) fun r => r.Regular ∧ r.bound = bound ∧ r.deleted = deleted := by
  refine Fits.succeeds ?_ (ofDeleted_spec hs hb)
  unfold ofDeleted
  refine (Fits.foldlM (I := fun _ => True) trivial fun k hk intervals _ => ?_).bind fun _ _ => .pure trivial
  have := hb k hk
  unfold addInterval
  exact (Fits.fitIndex (P := fun _ => True) (by omega) trivial).bind fun _ _ => .pure trivial

/-! ## New numbers -/

def Keeps (r : Renumbering) (i : Nat) : Prop := i < r.bound ∧ i ∉ r.deleted

instance : Decidable (r.Keeps i) := inferInstanceAs (Decidable (_ ∧ _))

def place (r : Renumbering) (i : Nat) : Nat := Nat.count (· ∉ r.deleted) i

theorem countP_lt_succ {l : List Nat} (h : l.Nodup) :
    l.countP (· < i + 1) = l.countP (· < i) + if i ∈ l then 1 else 0 := by
  induction l with
  | nil => rfl
  | cons k l ih =>
    obtain ⟨hk, hl⟩ := List.nodup_cons.mp h
    rw [List.countP_cons, List.countP_cons, ih hl]
    by_cases hik : i = k
    · simp [hik, hk]
    · have hlt : k < i + 1 ↔ k < i := by omega
      simp only [hlt, decide_eq_true_eq, List.mem_cons, hik, false_or]
      omega

theorem Regular.place_add (h : r.Regular) (i : Nat) : r.place i + r.deleted.countP (· < i) = i := by
  have hnodup : r.deleted.Nodup := h.sorted.imp Nat.ne_of_lt
  unfold place
  induction i with
  | zero => simp
  | succ i ih =>
    rw [Nat.count_succ, countP_lt_succ hnodup]
    by_cases hi : i ∈ r.deleted <;> simp only [hi, not_true_eq_false, not_false_eq_true, ite_true, ite_false] <;> omega

theorem Regular.place_eq_self (h : r.Regular) (hnone : r.deleted = []) (i : Nat) : r.place i = i := by
  have := h.place_add i
  rwa [hnone, List.countP_nil, Nat.add_zero] at this

theorem Regular.rename_eq (h : r.Regular) (i : Nat) :
    r.rename i = .ok (if r.Keeps i then some (r.place i) else none) := by
  have hplace := h.place_add i
  unfold rename
  by_cases hk : r.Keeps i
  · have hguard : (r.bound ≤ i || r.isDeleted i) = false := by
      simp [isDeleted, hk.2, hk.1]
    rw [hguard, h.shiftAt i, if_pos hk]
    simp only [Bool.false_eq_true, ite_false, indexSub]
    rw [if_pos (by omega), show i - r.deleted.countP (· < i) = r.place i by omega]
    rfl
  · have hguard : (r.bound ≤ i || r.isDeleted i) = true := by
      unfold Keeps at hk
      simp only [isDeleted, Bool.or_eq_true, decide_eq_true_eq]
      by_contra hno
      exact hk ⟨by omega, fun hmem => hno (.inr hmem)⟩
    rw [hguard, if_neg hk, if_pos rfl]

theorem Regular.place_bound (h : r.Regular) : r.place r.bound + r.deleted.length = r.bound := by
  have hall : r.deleted.countP (· < r.bound) = r.deleted.length := List.countP_eq_length.mpr fun k hk => by
    simpa using h.bounded k hk
  rw [← hall]
  exact h.place_add r.bound

theorem Regular.surviving_eq (h : r.Regular) : r.surviving = .ok (r.place r.bound) := by
  have := h.place_bound
  unfold surviving indexSub
  rw [if_pos (by omega), show r.bound - r.deleted.length = r.place r.bound by omega]

/-! ## Increasing, and onto -/

theorem Keeps.place_lt (hi : r.Keeps i) (hij : i < j) : r.place i < r.place j :=
  Nat.count_strict_mono (p := (· ∉ r.deleted)) hi.2 hij

theorem Keeps.place_lt_bound (hi : r.Keeps i) : r.place i < r.place r.bound := hi.place_lt hi.1

theorem Keeps.eq_of_place (hi : r.Keeps i) (hj : r.Keeps j) (h : r.place i = r.place j) : i = j :=
  Nat.count_injective (p := (· ∉ r.deleted)) hi.2 hj.2 h

theorem exists_place (hk : k < r.place r.bound) : ∃ i, r.Keeps i ∧ r.place i = k := by
  suffices h : ∀ b ≤ r.bound, k < r.place b → ∃ i, r.Keeps i ∧ r.place i = k from h r.bound (Nat.le_refl _) hk
  intro b
  induction b with
  | zero => exact fun _ h => absurd h (by simp [place])
  | succ b ih =>
    intro hb hlt
    by_cases hbefore : k < r.place b
    · exact ih (by omega) hbefore
    · have hsucc : r.place (b + 1) = r.place b + if b ∉ r.deleted then 1 else 0 := Nat.count_succ ..
      by_cases hdel : b ∈ r.deleted
      · rw [if_neg (by simpa using hdel)] at hsucc
        omega
      · rw [if_pos hdel] at hsucc
        exact ⟨b, ⟨by omega, hdel⟩, by omega⟩

/-! ## Counting -/

theorem Regular.rename_eq_some_iff (h : r.Regular) : r.rename i = .ok (some k) ↔ r.Keeps i ∧ r.place i = k := by
  rw [h.rename_eq, Except.ok.injEq]
  by_cases hi : r.Keeps i <;> simp [hi]

/-- **An index that is left moves down by the number of deletions below it.** -/
theorem ofDeleted_counts (hs : deleted.Pairwise (· < ·)) (hb : ∀ k ∈ deleted, k < bound)
    (hbound : bound < 18446744073709551616) :
    ∃ r, ofDeleted bound deleted = .ok r ∧
      (∀ i < bound, i ∉ deleted → deleted.countP (· < i) ≤ i ∧ r.rename i = .ok (some (i - deleted.countP (· < i)))) ∧
      (∀ i, bound ≤ i ∨ i ∈ deleted → r.rename i = .ok none) ∧
      (∀ i j k l, i < j → r.rename i = .ok (some k) → r.rename j = .ok (some l) → k < l) ∧
      (deleted.length ≤ bound ∧ r.surviving = .ok (bound - deleted.length)) ∧
      ∀ k, (∃ i, r.rename i = .ok (some k)) ↔ k < bound - deleted.length := by
  obtain ⟨r, hr, hregular, hrbound, hrdeleted⟩ := ofDeleted_succeeds hs hb hbound
  have hleft := hregular.place_bound
  have hsurviving := hregular.surviving_eq
  rw [hrbound, hrdeleted] at hleft
  refine ⟨r, hr, fun i hi hkept => ?_, fun i hgone => ?_, fun i j k l hij hik hjl => ?_, ⟨by omega, ?_⟩, fun k => ?_⟩
  · have hplace := hregular.place_add i
    rw [hrdeleted] at hplace
    refine ⟨by omega, hregular.rename_eq_some_iff.mpr ⟨⟨hrbound ▸ hi, hrdeleted ▸ hkept⟩, by omega⟩⟩
  · have hnot : ¬ r.Keeps i := by
      unfold Keeps
      rw [hrbound, hrdeleted]
      exact fun h => hgone.elim (Nat.not_le.mpr h.1) h.2
    rw [hregular.rename_eq, if_neg hnot]
  · obtain ⟨hi, rfl⟩ := hregular.rename_eq_some_iff.mp hik
    obtain ⟨-, rfl⟩ := hregular.rename_eq_some_iff.mp hjl
    exact hi.place_lt hij
  · rw [hsurviving, hrbound]
    exact congrArg _ (by omega)
  · have hplaces : k < r.place r.bound ↔ k < bound - deleted.length := by
      rw [hrbound]
      omega
    rw [← hplaces]
    constructor
    · intro ⟨i, hi⟩
      obtain ⟨hkeeps, rfl⟩ := hregular.rename_eq_some_iff.mp hi
      exact hkeeps.place_lt_bound
    · intro hk
      obtain ⟨i, hi⟩ := exists_place hk
      exact ⟨i, hregular.rename_eq_some_iff.mpr hi⟩

/-- The deletions make two runs, one of them at the start. -/
theorem ofDeleted_counts_runs : [0, 1, 4, 5, 6].Pairwise (· < ·) ∧ (∀ k ∈ [0, 1, 4, 5, 6], k < 9) ∧
    ∃ r, ofDeleted 9 [0, 1, 4, 5, 6] = .ok r ∧ r.rename 3 = .ok (some 1) ∧ r.rename 5 = .ok none ∧
      r.rename 7 = .ok (some 2) ∧ r.rename 9 = .ok none ∧ r.surviving = .ok 4 ∧ ∃ i, r.rename i = .ok (some 3) := by
  have hs : [0, 1, 4, 5, 6].Pairwise (· < ·) := by decide
  have hb : ∀ k ∈ [0, 1, 4, 5, 6], k < 9 := by decide
  obtain ⟨r, hr, hkept, hgone, -, ⟨-, hsurviving⟩, honto⟩ := ofDeleted_counts hs hb (by decide)
  exact ⟨hs, hb, r, hr, (hkept 3 (by decide) (by decide)).2, hgone 5 (by decide), (hkept 7 (by decide) (by decide)).2,
    hgone 9 (by decide), hsurviving, (honto 3).mpr (by decide)⟩

end Renumbering

end SigmaMethod
