import Mathlib.Data.Finset.Card
import Mathlib.Data.Fintype.Card
import SigmaMethod.Matching.Rank

/-!
# Pairings

A pairing is on some crossings if rows and columns name each other where they cross. The greedy walk makes such a
pairing: a line that it pairs is the one that it comes from or goes to, and it sees each line once.
-/

namespace SigmaMethod

variable {n : Nat} {m : Signature n} {c : Crossings n} {p : Pairing n} {i j : Fin n} {a b : Line n}

/-! ## Crossings -/

def Crossings.Mutual (c : Crossings n) : Prop := ∀ i j, j ∈ c.ofRow.get i ↔ i ∈ c.ofColumn.get j

theorem Crossings.Mutual.swap (h : c.Mutual) : c.swap.Mutual := fun j i => (h i j).symm

theorem Signature.mem_crossings_ofRow : j ∈ m.crossings.ofRow.get i ↔ ∃ x, m.get i j = some x := by
  have hget : m.crossings.ofRow.get i = ((m.rows.get i).entries.map (·.1)).reverse := Vector.getElem_map ..
  simp [hget, get, SortedMap.find?_eq_some_iff]

theorem Signature.mem_crossings_ofColumn : i ∈ m.crossings.ofColumn.get j ↔ ∃ x, m.get i j = some x := by
  have hget : m.crossings.ofColumn.get j = (List.finRange n).reverse.filter fun i => (m.get i j).isSome :=
    Vector.getElem_ofFn ..
  simp [hget, Option.isSome_iff_exists]

theorem Signature.crossings_mutual (m : Signature n) : m.crossings.Mutual := by
  intro i j
  rw [mem_crossings_ofRow, mem_crossings_ofColumn]

/-! ## Pairings on crossings -/

namespace Pairing

structure On (p : Pairing n) (c : Crossings n) : Prop where
  agree : ∀ i j, p.ofRow.get i = some j ↔ p.ofColumn.get j = some i
  crossing : ∀ i j, p.ofRow.get i = some j → j ∈ c.ofRow.get i

theorem On.swap (h : p.On c) (hc : c.Mutual) : p.swap.On c.swap where
  agree j i := (h.agree i j).symm
  crossing j i hij := (hc i j).mp (h.crossing i j ((h.agree i j).mpr hij))

theorem empty_on (c : Crossings n) : (empty n).On c := by
  constructor <;> intro i j <;> simp [empty, Vector.get]

theorem pair_ofRow (p : Pairing n) (i j k : Fin n) :
    (p.pair i j).ofRow.get k = if k = i then some j else p.ofRow.get k := Vector.get_put ..

theorem pair_ofColumn (p : Pairing n) (i j k : Fin n) :
    (p.pair i j).ofColumn.get k = if k = j then some i else p.ofColumn.get k := Vector.get_put ..

theorem On.pair (h : p.On c) (hi : p.ofRow.get i = none) (hj : p.ofColumn.get j = none) (hij : j ∈ c.ofRow.get i) :
    (p.pair i j).On c := by
  constructor
  · intro k l
    have hkl := h.agree k l
    have hkj := h.agree k j
    have hil := h.agree i l
    rw [pair_ofRow, pair_ofColumn]
    grind
  · intro k l hkl
    rw [pair_ofRow] at hkl
    split at hkl
    · cases hkl
      subst ‹k = i›
      exact hij
    · exact h.crossing k l hkl

def pairs (p : Pairing n) : Line n → Bool
  | .row i => (p.ofRow.get i).isSome
  | .column j => (p.ofColumn.get j).isSome

@[simp] theorem pairs_empty (a : Line n) : (empty n).pairs a = false := by
  cases a <;> simp [pairs, empty, Vector.get]

theorem pairs_pair : (p.pair i j).pairs a ↔ a = .row i ∨ a = .column j ∨ p.pairs a := by
  cases a with
  | row k =>
    simp only [pairs, pair_ofRow, Line.row.injEq, reduceCtorEq, false_or]
    split <;> simp [*]
  | column k =>
    simp only [pairs, pair_ofColumn, Line.column.injEq, reduceCtorEq, false_or]
    split <;> simp [*]

theorem pairs_of_pairLines {l : Line n} (h : (p.pairLines a b).pairs l) : l = a ∨ l = b ∨ p.pairs l := by
  cases a <;> cases b
  · exact .inr (.inr h)
  · exact pairs_pair.mp h
  · rw [or_left_comm]
    exact pairs_pair.mp h
  · exact .inr (.inr h)

theorem On.pairLines (h : p.On c) (hc : c.Mutual) (ha : p.pairs a = false) (hb : p.pairs b = false)
    (hab : b ∈ c.ofLine a) : (p.pairLines a b).On c := by
  cases a with
  | row i =>
    obtain ⟨j, hj, rfl⟩ := List.mem_map.mp hab
    exact h.pair (by simpa [pairs] using ha) (by simpa [pairs] using hb) hj
  | column j =>
    obtain ⟨i, hi, rfl⟩ := List.mem_map.mp hab
    exact h.pair (by simpa [pairs] using hb) (by simpa [pairs] using ha) ((hc i j).mpr hi)

end Pairing

/-! ## The greedy walk -/

namespace Walk

variable {w : Walk n} {line : Line n} {single : Bool}

@[simp] theorem visit_pairing : (w.visit a).pairing = w.pairing := by
  cases a <;> rfl

theorem seen_visit : (w.visit a).seen b ↔ b = a ∨ w.seen b := by
  have hput : ∀ (seen : Vector Bool n) (k l : Fin n), (seen.put k true).get l = if l = k then true else seen.get l :=
    fun _ _ _ => Vector.get_put ..
  cases a <;> cases b <;> simp [visit, seen, hput]

def unseen (w : Walk n) : Nat :=
  (Finset.univ.filter fun i => ¬ w.rowSeen.get i).card + (Finset.univ.filter fun j => ¬ w.columnSeen.get j).card

theorem unseen_le (w : Walk n) : w.unseen ≤ 2 * n := by
  have hrows := Finset.card_filter_le Finset.univ fun i => ¬ w.rowSeen.get i
  have hcolumns := Finset.card_filter_le Finset.univ fun j => ¬ w.columnSeen.get j
  rw [Finset.card_univ, Fintype.card_fin] at hrows hcolumns
  unfold unseen
  omega

theorem card_unseen_put {seen : Vector Bool n} {k : Fin n} (h : seen.get k = false) :
    (Finset.univ.filter fun i => ¬ (seen.put k true).get i).card < (Finset.univ.filter fun i => ¬ seen.get i).card := by
  have hput : ∀ i, (seen.put k true).get i = if i = k then true else seen.get i := fun i => Vector.get_put ..
  apply Finset.card_lt_card
  constructor
  · intro i hi
    simp [hput] at hi ⊢
    exact hi.2
  · intro hsub
    have hk := hsub (show k ∈ _ by simp [h])
    simp [hput] at hk

theorem unseen_visit (h : w.seen a = false) : (w.visit a).unseen < w.unseen := by
  cases a with
  | row i => exact Nat.add_lt_add_right (card_unseen_put h) _
  | column j => exact Nat.add_lt_add_left (card_unseen_put h) _

@[simp] theorem seen_pairing {q : Pairing n} : ({ w with pairing := q } : Walk n).seen a = w.seen a := by
  cases a <;> rfl

structure Sound (c : Crossings n) (w : Walk n) : Prop where
  on : w.pairing.On c
  seen : ∀ a, w.pairing.pairs a → w.seen a

structure At (c : Crossings n) (line : Line n) (single : Bool) (w : Walk n) : Prop where
  on : w.pairing.On c
  seen : ∀ a, w.pairing.pairs a → w.seen a ∨ a = line ∧ single = false
  unseen : w.seen line = false

theorem At.visit (h : w.At c line single) : (w.visit line).Sound c := by
  constructor
  · simpa using h.on
  · intro a ha
    rw [visit_pairing] at ha
    rw [seen_visit]
    cases h.seen a ha with
    | inl hseen => exact .inr hseen
    | inr hline => exact .inl hline.1

theorem At.pairs_eq_false (h : w.At c line true) : w.pairing.pairs line = false := by
  by_contra hpaired
  have := h.seen line (by simpa using hpaired)
  simp [h.unseen] at this

theorem Sound.pairs_eq_false (h : w.Sound c) (ha : w.seen a = false) : w.pairing.pairs a = false := by
  by_contra hpaired
  simp [h.seen a (by simpa using hpaired)] at ha

theorem Sound.at (h : w.Sound c) (ha : w.seen a = false) : w.At c a true :=
  ⟨h.on, fun b hb => .inl (h.seen b hb), ha⟩

theorem Sound.pairLines (h : w.Sound c) (hc : c.Mutual) (ha : w.seen a) (hfree : w.pairing.pairs a = false)
    (hb : w.seen b = false) (hab : b ∈ c.ofLine a) : At c b false { w with pairing := w.pairing.pairLines a b } := by
  constructor
  · exact h.on.pairLines hc hfree (h.pairs_eq_false hb) hab
  · intro l hl
    rw [seen_pairing]
    rcases Pairing.pairs_of_pairLines hl with rfl | rfl | hl
    · exact .inl ha
    · exact .inr ⟨rfl, rfl⟩
    · exact .inl (h.seen l hl)
  · simpa using hb

theorem follow_sound (hc : c.Mutual) {fuel : Nat} (h : w.At c line single) (hfuel : w.unseen ≤ fuel) :
    (follow c fuel line single w).Sound c := by
  have hless := unseen_visit h.unseen
  -- each step sees one more line, so the fuel lasts as long as there are lines to see
  induction fuel generalizing w line single with
  | zero => omega
  | succ fuel ih =>
    have hsound := h.visit
    have hfuel : (w.visit line).unseen ≤ fuel := by omega
    unfold follow
    dsimp only
    split
    · exact hsound
    · rename_i next hnext
      have hcross := List.mem_of_find?_eq_some hnext
      have hunseen : (w.visit line).seen next = false := by simpa using List.find?_some hnext
      cases single with
      | true =>
        have hfree : (w.visit line).pairing.pairs line = false := by simpa using h.pairs_eq_false
        have hnext := hsound.pairLines hc (seen_visit.mpr (.inl rfl)) hfree hunseen hcross
        exact ih hnext hfuel (unseen_visit hnext.unseen)
      | false => exact ih (hsound.at hunseen) hfuel (unseen_visit hunseen)

theorem start_sound (hc : c.Mutual) (h : w.Sound c) (line : Line n) : (start c w line).Sound c := by
  unfold start
  split
  · exact h
  · rename_i hline
    exact follow_sound hc (h.at (by simpa using hline)) w.unseen_le

theorem starts_sound (hc : c.Mutual) (lines : List (Line n)) (h : w.Sound c) : (lines.foldl (start c) w).Sound c := by
  induction lines generalizing w with
  | nil => exact h
  | cons line lines ih => exact ih (start_sound hc h line)

end Walk

theorem greedyPairing_on (hc : c.Mutual) : (greedyPairing c).On c := by
  have hempty : (Walk.empty n).Sound c := ⟨Pairing.empty_on c, fun a ha => by simp [Walk.empty] at ha⟩
  exact (Walk.starts_sound hc _ (Walk.starts_sound hc _ hempty)).on

end SigmaMethod
