import SigmaMethod.Proofs.Matching.Solver
import SigmaMethod.Proofs.Range.Reduction

/-!
# The range of the searches

Along a path of a search the potentials cancel: a label and the potential of its column add up to a sum of costs of
either sign, two for each column before it and one of its own. So what a scanned column has after the potentials are
lowered differs from the potential of the target by these sums alone. The target had no row, and the potential of a
column without a row was never lowered by a search; thus the searches do not add up.
-/

namespace SigmaMethod

variable {n : Nat} {m : Signature n} {C lo : Int}

/-! ## Labels -/

section labels

variable {a : DualAssignment n} {start : Fin n} {ready : List (Fin n)} {label : Vector (Option (Label n)) n} {j : Fin n}
  {l : Label n}

/-- A scanned column was labelled over a row that was on the searched side before. -/
theorem Tree.offered_older (h : Tree m a start ready label) (hc : a.Consistent m) (hfree : a.columnOf.get start = none)
    {newer older : List (Fin n)} (hready : ready = newer ++ j :: older) (hl : label.get j = some l) :
    ∃ b x, OffersFrom m a start older label l.pred b ∧ m.get l.pred j = some x ∧ l.dist = b + x - a.v.get j := by
  obtain ⟨b, x, hoffers, hx, hdist⟩ := h.offered j l hl
  refine ⟨b, x, ?_, hx, hdist⟩
  rcases hoffers with hp | ⟨k, -, l', y, hrow, hl', hy, hb⟩
  · exact .inl hp
  · rcases h.earlier newer j older hready l hl with hp | ⟨k', hk', hrow'⟩
    · rw [hp, ← hc.agree, hfree] at hrow
      cases hrow
    · obtain rfl := hc.column_unique hrow' hrow
      exact .inr ⟨k', hk', l', y, hrow, hl', hy, hb⟩

/-- The offers of a row differ from its costs by two costs for each column before it at most. -/
theorem Tree.offer_bound (h : Tree m a start ready label) (hc : a.Consistent m) (hfree : a.columnOf.get start = none)
    (hm : m.Bounded C) (hC : 0 ≤ C) : ∀ {older newer : List (Fin n)} {i : Fin n} {b : Int}, ready = newer ++ older →
      OffersFrom m a start older label i b → -(2 * (older.length * C)) ≤ b ∧ b ≤ 2 * (older.length * C) := by
  intro older
  induction older with
  | nil =>
    intro newer i b _ hi
    obtain ⟨-, rfl⟩ := offersFrom_nil.mp hi
    simp
  | cons k older ih =>
    intro newer i b hready hi
    have hready' : ready = (newer ++ [k]) ++ older := by rw [hready, List.append_assoc]; rfl
    have hsum : 0 ≤ (older.length : Int) * C := mul_nonneg (Int.natCast_nonneg _) hC
    rw [List.length_cons, Nat.cast_succ, add_one_mul]
    rcases hi with ⟨-, rfl⟩ | ⟨j, hj, l, x, hrow, hl, hx, rfl⟩
    · omega
    · rcases List.mem_cons.mp hj with rfl | hj
      · -- the newest column adds the cost over which it was labelled, and takes off that of its own row
        obtain ⟨b, y, hb, hy, hdist⟩ := h.offered_older hc hfree hready hl
        have hb := ih hready' hb
        have hx := hm.entry hx
        have hy := hm.entry hy
        omega
      · have hb := ih hready' (.inr ⟨j, hj, l, x, hrow, hl, hx, rfl⟩)
        omega

theorem Tree.label_bound (h : Tree m a start ready label) (hc : a.Consistent m) (hfree : a.columnOf.get start = none)
    (hm : m.Bounded C) (hC : 0 ≤ C) (hlen : ready.length < n) (hl : label.get j = some l) :
    -(2 * (n * C) - C) ≤ l.dist + a.v.get j ∧ l.dist + a.v.get j ≤ 2 * (n * C) - C := by
  obtain ⟨b, x, hoffers, hx, hdist⟩ := h.offered j l hl
  have hb := h.offer_bound hc hfree hm hC (List.nil_append ready).symm hoffers
  have hx := hm.entry hx
  have hlen := mul_le_mul_of_nonneg_right (Int.ofNat_le.mpr (Nat.succ_le_of_lt hlen)) hC
  rw [Nat.cast_succ, add_one_mul] at hlen
  omega

end labels

/-! ## The search -/

theorem le_dimension_mul (hC : 0 ≤ C) (j : Fin n) : C ≤ n * C :=
  le_mul_of_one_le_left hC (by have := j.isLt; omega)

structure Signature.Roomy (m : Signature n) (lo C : Int) : Prop where
  bounded : m.Bounded C
  nonneg : 0 ≤ C
  floor : lo ≤ 0
  room : 4 * (n * C) - 2 * lo ≤ 2147483647

namespace Signature.Roomy

variable {v : Vector Int n}

theorem inRange (hm : m.Roomy lo C) (hv : Between lo C v.get) {i j : Fin n} {x : Int} (hx : m.get i j = some x) :
    InRange (x - v.get j) := by
  have := le_dimension_mul hm.nonneg i
  have := hm.floor
  have := hm.room
  exact hm.bounded.inRange hv (by omega) hx

theorem reach_fits (hm : m.Roomy lo C) (hv : Between lo C v.get) (i : Fin n) (s : Scratch n) :
    Fits (m.reach v i s) fun _ => True := by
  unfold reach
  refine Fits.foldlM trivial ?_
  rintro ⟨k, x⟩ he s -
  exact .fit_bind (hm.inRange hv (mem_row_iff.mp he)) (.pure trivial)

/-- The distance over the row is tested after each operation; only the last takes off what the row's entry leaves. -/
theorem scanRow_fits (hm : m.Roomy lo C) (hv : Between lo C v.get) {dist h : Int}
    (hdist : -(2 * (n * C)) ≤ dist ∧ dist ≤ 2 * (n * C) - C - lo)
    (hoffer : -(2 * (n * C)) ≤ dist - h ∧ dist - h ≤ 2 * (n * C)) (i : Fin n) (s : Scratch n) :
    Fits (m.scanRow v i dist h s) fun _ => True := by
  obtain ⟨hm, hC, hlo, hroom⟩ := hm
  have := le_dimension_mul hC i
  unfold scanRow
  refine Fits.foldlM trivial ?_
  rintro ⟨k, x⟩ he s -
  have hx := hm.entry (mem_row_iff.mp he)
  have hk := hv k
  dsimp only
  split
  · exact .pure trivial
  · refine .fit_bind ⟨by omega, by omega⟩ (.fit_bind ⟨by omega, by omega⟩ ?_)
    exact .fit_bind ⟨by omega, by omega⟩ (.pure trivial)

end Signature.Roomy

theorem Searching.search_fits {a : DualAssignment n} {start : Fin n} (hm : m.Roomy lo C) (hv : Between lo C a.v.get)
    (hc : a.Consistent m) (hfree : a.columnOf.get start = none) :
    ∀ {fuel : Nat} {ready : List (Fin n)} {s : Scratch n}, Searching m a start ready s →
      Fits (a.search m fuel ready s) fun _ => True := by
  intro fuel
  induction fuel with
  | zero => exact fun _ => .ok trivial
  | succ fuel ih =>
    intro ready s h
    unfold DualAssignment.search
    cases hpop : s.frontier.pop with
    | none => exact .ok trivial
    | some popped =>
      obtain ⟨j, key, frontier⟩ := popped
      obtain ⟨hj, ⟨l, hl, hdist⟩, -, hcoupled⟩ := h.popped hpop
      dsimp only
      cases hrow : a.rowOf.get j with
      | none => exact .ok trivial
      | some i =>
        obtain ⟨x, hx⟩ := hc.entry_of_rowOf hrow
        have hxC := hm.bounded.entry hx
        have hvj := hv j
        have hlabel := h.tree.label_bound hc hfree hm.bounded hm.nonneg (h.tree.length_lt hj) hl
        dsimp only
        rw [Signature.pairCost_eq hx]
        refine .ok_bind (.fit_bind (hm.inRange hv hx) ?_)
        have hscan : Fits (m.scanRow a.v i key.dist (x - a.v.get j)
            { s with frontier, scanned := s.scanned.put j true }) fun _ => True :=
          hm.scanRow_fits hv ⟨by omega, by omega⟩ ⟨by omega, by omega⟩ i _
        refine (hscan.and (Signature.scanRow_spec hcoupled a.v i key.dist _)).bind fun t ht => ?_
        exact ih (h.scan hpop hrow hx ht.2 hc)

namespace DualAssignment

theorem lower_fits (label : Vector (Option (Label n)) n) (least : Int) :
    ∀ {ready : List (Fin n)} {a : DualAssignment n}, ready.Nodup →
      (∀ k ∈ ready, ∀ l, label.get k = some l →
        InRange (l.dist - least) ∧ InRange (a.v.get k + (l.dist - least))) →
      Fits (lower label least ready a) fun _ => True := by
  intro ready
  induction ready with
  | nil => exact fun _ _ => .ok trivial
  | cons j ready ih =>
    intro a hnodup hfit
    obtain ⟨hj, hnodup⟩ := List.nodup_cons.mp hnodup
    unfold lower
    cases hl : label.get j with
    | none => exact ih hnodup fun k hk => hfit k (List.mem_cons_of_mem j hk)
    | some l =>
      obtain ⟨hgap, hx⟩ := hfit j List.mem_cons_self l hl
      refine .fit_bind hgap (.fit_bind hx (ih hnodup fun k hk => ?_))
      have hkj : k ≠ j := fun e => hj (e ▸ hk)
      rw [setPotential_v, if_neg hkj]
      exact hfit k (List.mem_cons_of_mem j hk)

theorem shift_v (label : Vector (Option (Label n)) n) (start : Fin n) :
    ∀ (fuel : Nat) (j : Fin n) (a : DualAssignment n), (shift label start fuel j a).v = a.v := by
  intro fuel
  induction fuel with
  | zero => exact fun _ _ => rfl
  | succ fuel ih =>
    intro j a
    unfold shift
    cases label.get j with
    | none => rfl
    | some l =>
      dsimp only
      cases a.columnOf.get l.pred with
      | none => rfl
      | some k =>
        dsimp only
        split
        · rfl
        · exact ih k _

/-! ## One attempt -/

variable {a b : DualAssignment n} {start : Fin n}

structure Floored (lo C : Int) (a : DualAssignment n) : Prop where
  all : Between lo C a.v.get
  free : ∀ j, a.rowOf.get j = none → lo + 2 * (2 * (n * C) - C) ≤ a.v.get j

structure FloorKept (lo : Int) (a b : DualAssignment n) : Prop where
  floor : ∀ k, lo ≤ b.v.get k
  kept : ∀ k, a.rowOf.get k = none → b.v.get k = a.v.get k

section found

variable {r : Reached n} {j k : Fin n} {dist : Int} {l : Label n}

/-- The path to a labelled column and the path to the target leave the new potential between them. -/
theorem gap_bound (hr : Reached.Valid m a start r) (hm : m.Roomy lo C) (hc : a.Consistent m)
    (hfree : a.columnOf.get start = none) (ht : r.target = some (j, dist)) (hl : r.scratch.label.get k = some l) :
    -(2 * (2 * (n * C) - C)) ≤ a.v.get k + (l.dist - dist) - a.v.get j ∧
      a.v.get k + (l.dist - dist) - a.v.get j ≤ 2 * (2 * (n * C) - C) := by
  obtain ⟨-, ⟨lj, hlj, rfl⟩, -⟩ := hr.free j dist ht
  have hlen := hr.tree.length_lt (target_not_mem hr ht)
  have hk := hr.tree.label_bound hc hfree hm.bounded hm.nonneg hlen hl
  have hj := hr.tree.label_bound hc hfree hm.bounded hm.nonneg hlen hlj
  omega

theorem Floored.lower_fits (h : a.Floored lo C) (hr : Reached.Valid m a start r) (hm : m.Roomy lo C)
    (hc : a.Consistent m) (hfree : a.columnOf.get start = none) (ht : r.target = some (j, dist)) :
    Fits (lower r.scratch.label dist r.ready a) fun low => FloorKept lo a low := by
  have hgap := fun k l => gap_bound (k := k) (l := l) hr hm hc hfree ht
  have hj := h.all j
  have hjfree := h.free j (hr.free j dist ht).1
  have hfits : Fits (lower r.scratch.label dist r.ready a) fun _ => True := by
    refine DualAssignment.lower_fits r.scratch.label dist hr.tree.nodup fun k _ l hl => ?_
    have := hgap k l hl
    have := h.all k
    have := le_dimension_mul hm.nonneg j
    obtain ⟨-, hC, hlo, hroom⟩ := hm
    exact ⟨⟨by omega, by omega⟩, ⟨by omega, by omega⟩⟩
  refine (hfits.and (lower_spec r.scratch.label dist hr.tree.nodup)).imp fun low hlow => ⟨fun k => ?_, fun k hk => ?_⟩
  · by_cases hk : k ∈ r.ready
    · obtain ⟨l, hl⟩ := hr.tree.labelled k hk
      have := hgap k l hl
      rw [hlow.2.lowered k hk l hl]
      omega
    · rw [hlow.2.kept k hk]
      exact (h.all k).1
  · refine hlow.2.kept k fun hready => ?_
    obtain ⟨i, hi⟩ := hr.tree.owned k hready
    rw [hk] at hi
    cases hi

end found

theorem Floored.augment_fits (h : a.Floored lo C) (hm : m.Roomy lo C) (hc : a.Consistent m)
    (hfree : a.columnOf.get start = none) {s : Scratch n} (hs : s.WF) :
    Fits (a.augment m start s) fun t => t.matched = true → FloorKept lo a t.assignment := by
  unfold augment
  refine ((hm.reach_fits h.all start s.clear).and
    (Signature.reach_spec hs.clear_coupled hs.clear_scanned a.v start)).bind fun t ht => ?_
  have hsearching := searching_of_reach hs ht.2
  refine ((hsearching.search_fits hm h.all hc hfree).and
    (hsearching.search_spec hc (by simp))).bind fun r hr => ?_
  cases htarget : r.target with
  | none => exact .pure fun h => nomatch h
  | some target =>
    refine (h.lower_fits hr.2 hm hc hfree htarget).bind fun low hlow => .pure fun _ => ?_
    have hv : ∀ k, (low.shift r.scratch.label start n target.1).v.get k = low.v.get k := fun k => by rw [shift_v]
    exact ⟨fun k => hv k ▸ hlow.floor k, fun k hk => (hv k).trans (hlow.kept k hk)⟩

theorem Floored.augmented (h : a.Floored lo C) (ha : a.LeastInRows m) (hb : Augmented m start a b)
    (hfloor : FloorKept lo a b) : b.Floored lo C where
  all k := ⟨hfloor.floor k, (hb.lowered ha k).trans (h.all k).2⟩
  free j hj := by
    obtain ⟨k, -, hcolumns⟩ := hb.columns
    have hold : a.rowOf.get j = none := by
      have hj' := hcolumns j
      rw [hj] at hj'
      simpa using fun hsome => hj'.mpr (.inl hsome)
    rw [hfloor.kept j hold]
    exact h.free j hold

/-- **All numbers of the searches fit**, however many there are. -/
theorem Floored.augmentAll_fits (hm : m.Roomy lo C) : ∀ {free : List (Fin n)} {a : DualAssignment n} {s : Scratch n},
    a.Floored lo C → Reduced m a free → s.WF → Fits (augmentAll m free a s) fun b => Between lo C b.v.get := by
  intro free
  induction free with
  | nil => exact fun h _ _ => .ok h.all
  | cons i free ih =>
    intro a s h hr hs
    have hi : a.columnOf.get i = none := (hr.free.mem_iff i).mp List.mem_cons_self
    unfold augmentAll
    refine ((h.augment_fits hm hr.consistent hi hs).and (augment_spec hr.consistent hi hs)).bind fun t ht => ?_
    obtain ⟨hfloor, ht⟩ := ht
    cases hmatched : t.matched with
    | false => exact .refuse
    | true =>
      have haug := ht.matched hmatched
      exact ih (h.augmented hr.leastInRows haug (hfloor hmatched))
        ⟨haug.consistent, haug.leastInRows hr.leastInRows, haug.freeAre hr.free⟩ ht.scratch

end DualAssignment

end SigmaMethod
