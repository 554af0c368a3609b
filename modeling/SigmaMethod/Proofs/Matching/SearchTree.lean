import Mathlib.Data.Finset.Card
import Mathlib.Data.Fintype.Card
import SigmaMethod.Proofs.Matching.Search
import SigmaMethod.Proofs.Matching.Transversal

/-!
# Search trees

The state of a search as a tree over its scanned columns, newest first, and what one scan and a whole search make of it.
A search that ends without a free column has found more rows than they have columns.
-/

namespace SigmaMethod

variable {n : Nat} {m : Signature n} {a : DualAssignment n} {start : Fin n} {ready : List (Fin n)}
  {label : Vector (Option (Label n)) n}

/-- Row `i` is on the searched side: it is the start or the row of a scanned column. The offers of the row are its
reduced costs from `b` on. -/
def OffersFrom (m : Signature n) (a : DualAssignment n) (start : Fin n) (ready : List (Fin n))
    (label : Vector (Option (Label n)) n) (i : Fin n) (b : Int) : Prop :=
  i = start ∧ b = 0 ∨ ∃ j ∈ ready, ∃ l x,
    a.rowOf.get j = some i ∧ label.get j = some l ∧ m.get i j = some x ∧ b = l.dist + a.v.get j - x

structure Tree (m : Signature n) (a : DualAssignment n) (start : Fin n) (ready : List (Fin n))
    (label : Vector (Option (Label n)) n) : Prop where
  nodup : ready.Nodup
  owned : ∀ j ∈ ready, ∃ i, a.rowOf.get j = some i
  labelled : ∀ j ∈ ready, ∃ l, label.get j = some l
  offered : ∀ k l, label.get k = some l →
    ∃ b x, OffersFrom m a start ready label l.pred b ∧ m.get l.pred k = some x ∧ l.dist = b + x - a.v.get k
  earlier : ∀ newer j older, ready = newer ++ j :: older → ∀ l, label.get j = some l →
    l.pred = start ∨ ∃ k ∈ older, a.rowOf.get k = some l.pred
  closed : ∀ i b k x, OffersFrom m a start ready label i b → m.get i k = some x → ∃ l, label.get k = some l

structure Shortest (m : Signature n) (a : DualAssignment n) (start : Fin n) (ready : List (Fin n))
    (label : Vector (Option (Label n)) n) : Prop where
  least : ∀ i b k x l, OffersFrom m a start ready label i b → m.get i k = some x → label.get k = some l →
    l.dist ≤ b + x - a.v.get k
  nearer : ∀ j ∈ ready, ∀ k, k ∉ ready → ∀ l l', label.get j = some l → label.get k = some l' → l.dist ≤ l'.dist

structure Searching (m : Signature n) (a : DualAssignment n) (start : Fin n) (ready : List (Fin n))
    (s : Scratch n) : Prop where
  coupled : s.Coupled
  scanned : ∀ j, s.scanned.get j = true ↔ j ∈ ready
  tree : Tree m a start ready s.label
  shortest : a.LeastInRows m → Shortest m a start ready s.label

structure Reached.Valid (m : Signature n) (a : DualAssignment n) (start : Fin n) (r : Reached n) : Prop where
  wf : r.scratch.WF
  tree : Tree m a start r.ready r.scratch.label
  shortest : a.LeastInRows m → Shortest m a start r.ready r.scratch.label
  exhausted : r.target = none → ∀ k l, r.scratch.label.get k = some l → k ∈ r.ready
  free : ∀ j dist, r.target = some (j, dist) → a.rowOf.get j = none ∧
    (∃ l, r.scratch.label.get j = some l ∧ l.dist = dist) ∧
      ∀ k l, k ∉ r.ready → r.scratch.label.get k = some l → dist ≤ l.dist

theorem Tree.length_lt (h : Tree m a start ready label) {j : Fin n} (hj : j ∉ ready) : ready.length < n := by
  have := (List.nodup_cons.mpr ⟨hj, h.nodup⟩).length_le_card
  rw [Fintype.card_fin, List.length_cons] at this
  omega

/-! ## The first labels -/

theorem offersFrom_nil {i : Fin n} {b : Int} : OffersFrom m a start [] label i b ↔ i = start ∧ b = 0 := by
  simp [OffersFrom]

theorem searching_of_reach {s t : Scratch n} (hs : s.WF)
    (ht : Scratch.Offered a.v start 0 s.clear t (m.rows.get start).entries) : Searching m a start [] t := by
  have hentry : ∀ k l, t.label.get k = some l →
      l.pred = start ∧ ∃ x, m.get start k = some x ∧ l.dist = 0 + x - a.v.get k := by
    intro k l hl
    rcases ht.kept k l hl with hold | ⟨-, hp, x, hx, hd⟩
    · rw [hs.clear_label] at hold
      cases hold
    · exact ⟨hp, x, Signature.mem_row_iff.mp hx, hd⟩
  constructor
  · exact ht.coupled
  · intro j
    rw [ht.scanned, hs.clear_scanned]
    simp
  · constructor
    · exact .nil
    · exact fun j hj => nomatch hj
    · exact fun j hj => nomatch hj
    · intro k l hl
      obtain ⟨hp, x, hx, hd⟩ := hentry k l hl
      exact ⟨0, x, offersFrom_nil.mpr ⟨hp, rfl⟩, hp ▸ hx, hd⟩
    · intro newer j older h
      simp at h
    · intro i b k x hi hx
      obtain ⟨rfl, rfl⟩ := offersFrom_nil.mp hi
      obtain ⟨l, hl, -⟩ := ht.reached k x (Signature.mem_row_iff.mpr hx) (hs.clear_scanned k)
      exact ⟨l, hl⟩
  · intro _
    constructor
    · intro i b k x l hi hx hl
      obtain ⟨rfl, rfl⟩ := offersFrom_nil.mp hi
      obtain ⟨l', hl', hle⟩ := ht.reached k x (Signature.mem_row_iff.mpr hx) (hs.clear_scanned k)
      rw [hl] at hl'
      cases hl'
      exact hle
    · exact fun j hj => nomatch hj

/-! ## One scan -/

section scan

variable {s s' t : Scratch n} {j i : Fin n} {key : Key} {x : Int} {frontier : Frontier n}

theorem Searching.popped (h : Searching m a start ready s) (hpop : s.frontier.pop = some (j, key, frontier)) :
    j ∉ ready ∧ (∃ l, s.label.get j = some l ∧ l.dist = key.dist) ∧
      (∀ k l, k ∉ ready → s.label.get k = some l → key.dist ≤ l.dist) ∧
      ({ s with frontier, scanned := s.scanned.put j true } : Scratch n).Coupled := by
  obtain ⟨hscanned, hlabel, hcoupled⟩ := h.coupled.pop hpop
  refine ⟨fun hj => ?_, hlabel, fun k l hk hl => ?_, hcoupled⟩
  · rw [(h.scanned j).mpr hj] at hscanned
    cases hscanned
  · obtain ⟨-, hmin, -⟩ := h.coupled.frontier.pop_eq_some hpop
    have hfk := h.coupled.find? k
    rw [if_neg (fun hs => hk ((h.scanned k).mp hs)), hl] at hfk
    exact Key.dist_le_of_not_before (hmin k _ hfk)

/-- Scanning column `j` adds its row to the searched side and leaves the others as they were. -/
theorem offersFrom_cons {l : Label n} {b : Int} {r : Fin n} (hj : a.rowOf.get j = some i) (hx : m.get i j = some x)
    (hl : s.label.get j = some l) (hsame : ∀ k ∈ j :: ready, t.label.get k = s.label.get k) :
    OffersFrom m a start (j :: ready) t.label r b ↔
      OffersFrom m a start ready s.label r b ∨ r = i ∧ b = l.dist + a.v.get j - x := by
  unfold OffersFrom
  constructor
  · rintro (h | ⟨k, hk, l', y, hr, hl', hy, hb⟩)
    · exact .inl (.inl h)
    · rw [hsame k hk] at hl'
      rcases List.mem_cons.mp hk with rfl | hk
      · rw [hj] at hr
        cases hr
        rw [hl] at hl'
        cases hl'
        rw [hx] at hy
        cases hy
        exact .inr ⟨rfl, hb⟩
      · exact .inl (.inr ⟨k, hk, l', y, hr, hl', hy, hb⟩)
  · rintro ((h | ⟨k, hk, l', y, hr, hl', hy, hb⟩) | ⟨rfl, hb⟩)
    · exact .inl h
    · have hk' := List.mem_cons_of_mem j hk
      exact .inr ⟨k, hk', l', y, hr, (hsame k hk').trans hl', hy, hb⟩
    · exact .inr ⟨j, List.mem_cons_self, l, x, hj, (hsame j List.mem_cons_self).trans hl, hx, hb⟩

variable (h : Searching m a start ready s) (hpop : s.frontier.pop = some (j, key, frontier))
  (hj : a.rowOf.get j = some i) (hx : m.get i j = some x)
  (ht : Scratch.Offered a.v i (key.dist - (x - a.v.get j))
    { s with frontier, scanned := s.scanned.put j true } t (m.rows.get i).entries)

include h in
theorem Searching.scanned_put (k : Fin n) : (s.scanned.put j true).get k = true ↔ k ∈ j :: ready := by
  rw [Vector.get_put, List.mem_cons, ← h.scanned k]
  by_cases hk : k = j <;> simp [hk]

include h ht in
theorem Searching.label_eq {l : Label n} (hl : s.label.get j = some l) :
    ∀ k ∈ j :: ready, t.label.get k = s.label.get k := by
  intro k hk
  obtain ⟨lk, hlk⟩ : ∃ lk, s.label.get k = some lk := by
    rcases List.mem_cons.mp hk with rfl | hk
    · exact ⟨l, hl⟩
    · exact h.tree.labelled k hk
  rw [hlk]
  exact ht.label_of_scanned ((h.scanned_put k).mpr hk) hlk

include h hpop hj hx ht in
theorem Searching.scan_tree : Tree m a start (j :: ready) t.label := by
  obtain ⟨hjr, ⟨l, hl, hdist⟩, -, -⟩ := h.popped hpop
  have hsame := h.label_eq ht hl
  have hfrom : ∀ {r b}, OffersFrom m a start (j :: ready) t.label r b ↔
      OffersFrom m a start ready s.label r b ∨ r = i ∧ b = l.dist + a.v.get j - x := offersFrom_cons hj hx hl hsame
  constructor
  · exact List.nodup_cons.mpr ⟨hjr, h.tree.nodup⟩
  · intro k hk
    rcases List.mem_cons.mp hk with rfl | hk
    · exact ⟨i, hj⟩
    · exact h.tree.owned k hk
  · intro k hk
    rw [hsame k hk]
    rcases List.mem_cons.mp hk with rfl | hk
    · exact ⟨l, hl⟩
    · exact h.tree.labelled k hk
  · intro k lk hlk
    rcases ht.kept k lk hlk with hold | ⟨-, hp, y, hy, hd⟩
    · obtain ⟨b, y, hb, hy, hd⟩ := h.tree.offered k lk hold
      exact ⟨b, y, hfrom.mpr (.inl hb), hy, hd⟩
    · refine ⟨l.dist + a.v.get j - x, y, hfrom.mpr (.inr ⟨hp, rfl⟩), hp ▸ Signature.mem_row_iff.mp hy, ?_⟩
      omega
  · intro newer k older hready lk hlk
    have hk : k ∈ j :: ready := hready ▸ List.mem_append_right newer List.mem_cons_self
    rw [hsame k hk] at hlk
    cases newer with
    | nil =>
      -- the newest column was labelled over a row that was on the searched side before
      obtain ⟨rfl, rfl⟩ : j = k ∧ ready = older := by simpa using hready
      obtain ⟨b, y, hb, -⟩ := h.tree.offered j lk hlk
      rcases hb with ⟨hp, -⟩ | ⟨k, hk, -, -, hr, -⟩
      · exact .inl hp
      · exact .inr ⟨k, hk, hr⟩
    | cons j' newer =>
      obtain ⟨-, hready⟩ : j = j' ∧ ready = newer ++ k :: older := by simpa using hready
      exact h.tree.earlier newer k older hready lk hlk
  · intro r b k y hr hy
    rcases hfrom.mp hr with hold | ⟨rfl, -⟩
    · obtain ⟨lk, hlk⟩ := h.tree.closed r b k y hold hy
      obtain ⟨l', hl', -⟩ := ht.lower k lk hlk
      exact ⟨l', hl'⟩
    · by_cases hk : k ∈ j :: ready
      · obtain ⟨lk, hlk⟩ := ht.coupled.scanned k (by rw [ht.scanned]; exact (h.scanned_put k).mpr hk)
        exact ⟨lk, hlk⟩
      · obtain ⟨lk, hlk, -⟩ := ht.reached k y (Signature.mem_row_iff.mpr hy)
          (Bool.eq_false_iff.mpr fun hs => hk ((h.scanned_put k).mp hs))
        exact ⟨lk, hlk⟩

include h hpop hj hx ht in
theorem Searching.scan_shortest (hc : a.Consistent m) (hleast : a.LeastInRows m) :
    Shortest m a start (j :: ready) t.label := by
  obtain ⟨hjr, ⟨l, hl, hdist⟩, hmin, -⟩ := h.popped hpop
  have hsame := h.label_eq ht hl
  have hfrom : ∀ {r b}, OffersFrom m a start (j :: ready) t.label r b ↔
      OffersFrom m a start ready s.label r b ∨ r = i ∧ b = l.dist + a.v.get j - x := offersFrom_cons hj hx hl hsame
  have hshort := h.shortest hleast
  have hij : a.columnOf.get i = some j := (hc.agree i j).mpr hj
  -- no offer of the new row is nearer than its own column
  have hoffer : ∀ k y, m.get i k = some y → l.dist ≤ l.dist + a.v.get j - x + y - a.v.get k := fun k y hy => by
    have := hleast i j x k y hij hx hy
    omega
  -- columns scanned before are nearer than the new one
  have hbefore : ∀ k ∈ j :: ready, ∀ lk, s.label.get k = some lk → lk.dist ≤ l.dist := by
    intro k hk lk hlk
    rcases List.mem_cons.mp hk with rfl | hk
    · rw [hl] at hlk
      cases hlk
      exact Int.le_refl _
    · exact hshort.nearer k hk j hjr lk l hlk hl
  constructor
  · intro r b k y lk hr hy hlk
    rcases hfrom.mp hr with hold | ⟨rfl, rfl⟩
    · obtain ⟨l₀, hl₀⟩ := h.tree.closed r b k y hold hy
      have hle := hshort.least r b k y l₀ hold hy hl₀
      obtain ⟨l', hl', hle'⟩ := ht.lower k l₀ hl₀
      rw [hlk] at hl'
      cases hl'
      omega
    · by_cases hk : k ∈ j :: ready
      · rw [hsame k hk] at hlk
        have h₁ := hbefore k hk lk hlk
        have h₂ := hoffer k y hy
        omega
      · obtain ⟨l', hl', hle'⟩ := ht.reached k y (Signature.mem_row_iff.mpr hy)
          (Bool.eq_false_iff.mpr fun hs => hk ((h.scanned_put k).mp hs))
        rw [hlk] at hl'
        cases hl'
        omega
  · intro k hk k' hk' lk lk' hlk hlk'
    rw [hsame k hk] at hlk
    rcases ht.kept k' lk' hlk' with hold | ⟨-, -, y, hy, hd⟩
    · have h₁ := hbefore k hk lk hlk
      have h₂ := hmin k' lk' (fun hr => hk' (List.mem_cons_of_mem j hr)) hold
      omega
    · have h₁ := hbefore k hk lk hlk
      have h₂ := hoffer k' y (Signature.mem_row_iff.mp hy)
      omega

include h hpop hj hx ht in
theorem Searching.scan (hc : a.Consistent m) : Searching m a start (j :: ready) t where
  coupled := ht.coupled
  scanned k := by rw [ht.scanned]; exact h.scanned_put k
  tree := h.scan_tree hpop hj hx ht
  shortest := h.scan_shortest hpop hj hx ht hc

end scan

/-! ## The whole search -/

theorem Searching.search_spec (hc : a.Consistent m) : ∀ {fuel : Nat} {ready : List (Fin n)} {s : Scratch n},
    Searching m a start ready s → n < ready.length + fuel →
      Yields (a.search m fuel ready s) (Reached.Valid m a start) := by
  intro fuel
  induction fuel with
  | zero =>
    intro ready s h hfuel
    have := h.tree.nodup.length_le_card
    rw [Fintype.card_fin] at this
    omega
  | succ fuel ih =>
    intro ready s h hfuel
    unfold DualAssignment.search
    cases hpop : s.frontier.pop with
    | none =>
      refine .ok ⟨h.coupled.wf, h.tree, h.shortest, fun _ k l hl => ?_, fun j dist ht => nomatch ht⟩
      have hfind := h.coupled.find? k
      rw [h.coupled.frontier.pop_eq_none hpop, hl] at hfind
      by_cases hs : s.scanned.get k = true
      · exact (h.scanned k).mp hs
      · simp [hs] at hfind
    | some popped =>
      obtain ⟨j, key, frontier⟩ := popped
      obtain ⟨hjr, ⟨l, hl, hdist⟩, hmin, hcoupled⟩ := h.popped hpop
      dsimp only
      cases hrow : a.rowOf.get j with
      | none =>
        refine .ok ⟨hcoupled.wf, h.tree, h.shortest, fun ht => (nomatch ht), fun j' dist ht => ?_⟩
        cases ht
        exact ⟨hrow, ⟨l, hl, hdist⟩, hmin⟩
      | some i =>
        obtain ⟨x, hx⟩ := hc.entry_of_rowOf hrow
        dsimp only
        rw [Signature.pairCost_eq hx]
        refine .bind (P := fun y => y = x) (.ok rfl) ?_
        rintro y rfl
        refine .bind (.fit rfl) fun g hg => ?_
        subst hg
        refine (Signature.scanRow_spec hcoupled a.v i key.dist _).bind fun t ht => ?_
        refine ih (h.scan hpop hrow hx ht hc) ?_
        simp only [List.length_cons]
        omega

/-! ## Exhaustion -/

/-- **A search that finds no free column has proved that there is no perfect matching**: the rows on the searched side
are one more than the columns they have entries in. -/
theorem Reached.Valid.not_isTransversal {r : Reached n} (h : Reached.Valid m a start r) (hc : a.Consistent m)
    (hfree : a.columnOf.get start = none) (hr : r.target = none) (σ : Equiv.Perm (Fin n)) : ¬ m.IsTransversal σ := by
  intro hσ
  have hmem : ∀ i b, OffersFrom m a start r.ready r.scratch.label i b → σ i ∈ r.ready := by
    intro i b hi
    obtain ⟨x, hx⟩ := hσ i
    obtain ⟨l, hl⟩ := h.tree.closed i b (σ i) x hi hx
    exact h.exhausted hr (σ i) l hl
  -- the rows of the scanned columns, and the start
  let rowsOf : Fin n → Fin n := fun j => (a.rowOf.get j).getD start
  have hrows : ∀ j ∈ r.ready, a.rowOf.get j = some (rowsOf j) := by
    intro j hj
    obtain ⟨i, hi⟩ := h.tree.owned j hj
    simp [rowsOf, hi]
  have hinj : Set.InjOn rowsOf r.ready.toFinset := by
    intro j hj k hk hjk
    have hj' := hrows j (by simpa using hj)
    have hk' := hrows k (by simpa using hk)
    rw [hjk] at hj'
    exact hc.column_unique hj' hk'
  have hstart : start ∉ r.ready.toFinset.image rowsOf := by
    rw [Finset.mem_image]
    rintro ⟨j, hj, hjs⟩
    have hj' := hrows j (by simpa using hj)
    rw [hjs, ← hc.agree, hfree] at hj'
    cases hj'
  have hcard : (insert start (r.ready.toFinset.image rowsOf)).card ≤ r.ready.toFinset.card := by
    refine Finset.card_le_card_of_injOn σ ?_ σ.injective.injOn
    intro i hi
    rcases Finset.mem_insert.mp hi with rfl | hi
    · simpa using hmem i 0 (.inl ⟨rfl, rfl⟩)
    · obtain ⟨j, hj, rfl⟩ := Finset.mem_image.mp hi
      have hj : j ∈ r.ready := by simpa using hj
      obtain ⟨l, hl⟩ := h.tree.labelled j hj
      obtain ⟨x, hx⟩ := hc.entry_of_rowOf (hrows j hj)
      simpa using hmem (rowsOf j) _ (.inr ⟨j, hj, l, x, hrows j hj, hl, hx, rfl⟩)
  rw [Finset.card_insert_of_notMem hstart, Finset.card_image_of_injOn hinj] at hcard
  omega

end SigmaMethod
