import SigmaMethod.Proofs.Matching.Pairing

/-!
# Alternating paths

A breadth-first search either pairs the row that it starts from, or ends with a set of rows that is closed: the columns
that its rows cross all have their partners in it. Paths never lead into a closed set, so it stays closed, and a row
that a search has failed to pair need not be tried again.
-/

namespace SigmaMethod

variable {n : Nat} {c : Crossings n} {p q b : Pairing n} {origin origin' : Vector (Option (Origin n)) n}
  {start x y z i j : Fin n} {l older done : List (Fin n)} {D : Set (Fin n)}

/-! ## Trees of rows -/

/-- Rows reached from `start`, the newest first, each over its own column from a row reached before. -/
inductive Grown (c : Crossings n) (p : Pairing n) (start : Fin n) (origin : Vector (Option (Origin n)) n) :
    List (Fin n) → Prop
  | root : origin.get start = some .root → Grown c p start origin [start]
  | via {older : List (Fin n)} {w i z : Fin n} : Grown c p start origin older → i ∉ older → w ∈ older →
      origin.get i = some (.via w) → p.ofColumn.get z = some i → z ∈ c.ofRow.get w →
      Grown c p start origin (i :: older)

namespace Grown

theorem nodup (h : Grown c p start origin l) : l.Nodup := by
  induction h with
  | root => simp
  | via _ hi _ _ _ _ ih => exact List.nodup_cons.mpr ⟨hi, ih⟩

theorem start_mem (h : Grown c p start origin l) : start ∈ l := by
  induction h with
  | root => simp
  | via _ _ _ _ _ _ ih => exact List.mem_cons_of_mem _ ih

theorem congr (h : Grown c p start origin l) (hsame : ∀ i ∈ l, origin'.get i = origin.get i) :
    Grown c p start origin' l := by
  induction h with
  | root hroot => exact .root (by rw [hsame start (by simp), hroot])
  | via hold hi hw hvia hz hcross ih =>
    refine .via (ih fun k hk => hsame k (List.mem_cons_of_mem _ hk)) hi hw ?_ hz hcross
    rw [hsame _ List.mem_cons_self, hvia]

theorem of_mem (h : Grown c p start origin l) (hi : i ∈ l) :
    ∃ older, (i :: older) <:+ l ∧ Grown c p start origin (i :: older) := by
  induction h with
  | root hroot =>
    obtain rfl := List.mem_singleton.mp hi
    exact ⟨[], List.suffix_refl _, .root hroot⟩
  | @via older w k z hold hk hw hvia hz hcross ih =>
    cases List.mem_cons.mp hi with
    | inl heq => exact ⟨older, by rw [heq], heq ▸ .via hold hk hw hvia hz hcross⟩
    | inr hmem =>
      obtain ⟨older', hsuffix, hgrown⟩ := ih hmem
      exact ⟨older', hsuffix.trans (List.suffix_cons _ _), hgrown⟩

theorem length_le (h : Grown c p start origin l) : l.length ≤ n := by
  simpa using h.nodup.length_le_card

end Grown

/-! ## Exchanging pairs -/

namespace Pairing

def Closed (c : Crossings n) (p : Pairing n) (D : Set (Fin n)) : Prop :=
  ∀ x ∈ D, ∀ y ∈ c.ofRow.get x, ∃ i ∈ D, p.ofColumn.get y = some i

/-- Rows and columns name each other, but no row has column `y`, whatever row that names. -/
def HoleAt (p : Pairing n) (y : Fin n) : Prop :=
  ∀ i k, p.ofRow.get i = some k ↔ p.ofColumn.get k = some i ∧ k ≠ y

theorem On.holeAt (h : p.On c) (hy : p.ofColumn.get y = none) : p.HoleAt y := by
  intro i k
  rw [h.agree, iff_self_and]
  intro hk hky
  rw [hky, hy] at hk
  cases hk

theorem HoleAt.pair_of_some (h : p.HoleAt y) (hx : p.ofRow.get x = some z) : (p.pair x y).HoleAt z := by
  intro i k
  have hzy := ((h x z).mp hx).2
  have hik := h i k
  have hxk := h x k
  rw [pair_ofRow, pair_ofColumn]
  grind

theorem HoleAt.pair_of_none (h : p.HoleAt y) (hx : p.ofRow.get x = none) (i k : Fin n) :
    (p.pair x y).ofRow.get i = some k ↔ (p.pair x y).ofColumn.get k = some i := by
  have hik := h i k
  have hxk := h x k
  rw [pair_ofRow, pair_ofColumn]
  grind

structure Exchanged (c : Crossings n) (p : Pairing n) (start x y : Fin n) (q b : Pairing n) : Prop where
  on : b.On c
  rows : ∀ i, (b.ofRow.get i).isSome ↔ (q.ofRow.get i).isSome ∨ i = start
  columns : ∀ j, (b.ofColumn.get j).isSome ↔ (q.ofColumn.get j).isSome ∨ j = y
  kept : ∀ D, p.Closed c D → x ∉ D → ∀ j ≠ y,
    b.ofColumn.get j = q.ofColumn.get j ∨ ∃ i ∉ D, q.ofColumn.get j = some i

theorem pair_crossing (hq : ∀ i k, q.ofRow.get i = some k → k ∈ c.ofRow.get i) (hxy : y ∈ c.ofRow.get x)
    (i k : Fin n) (hik : (q.pair x y).ofRow.get i = some k) : k ∈ c.ofRow.get i := by
  rw [pair_ofRow] at hik
  split at hik
  · cases hik
    subst ‹i = x›
    exact hxy
  · exact hq i k hik

theorem Exchanged.last (hhole : q.HoleAt y) (hq : ∀ i k, q.ofRow.get i = some k → k ∈ c.ofRow.get i)
    (hxy : y ∈ c.ofRow.get start) (hfree : q.ofRow.get start = none) :
    Exchanged c p start start y q (q.pair start y) where
  on := ⟨hhole.pair_of_none hfree, pair_crossing hq hxy⟩
  rows i := by
    rw [pair_ofRow]
    by_cases hi : i = start <;> simp [hi]
  columns j := by
    rw [pair_ofColumn]
    by_cases hj : j = y <;> simp [hj]
  kept D _ _ j hj := by
    rw [pair_ofColumn, if_neg hj]
    exact .inl rfl

/-- On its way the path takes column `z` from row `x`, for a row `w` that crosses it. -/
theorem Exchanged.cons {w : Fin n} (hx : q.ofRow.get x = some z) (hz : q.ofColumn.get z = some x)
    (hpz : p.ofColumn.get z = some x) (hwz : z ∈ c.ofRow.get w) (h : Exchanged c p start w z (q.pair x y) b) :
    Exchanged c p start x y q b where
  on := h.on
  rows i := by
    rw [h.rows, pair_ofRow]
    by_cases hi : i = x <;> simp [hi, hx]
  columns j := by
    rw [h.columns, pair_ofColumn]
    by_cases hj : j = y
    · simp [hj]
    · by_cases hjz : j = z <;> simp [hj, hjz, hz]
  kept D hD hxD j hj := by
    have hwD : w ∉ D := by
      intro hw
      obtain ⟨i, hi, hzi⟩ := hD w hw z hwz
      rw [hpz, Option.some.injEq] at hzi
      exact hxD (hzi ▸ hi)
    by_cases hjz : j = z
    · exact .inr ⟨x, hxD, hjz ▸ hz⟩
    · have hkept := h.kept D hD hwD j hjz
      rwa [pair_ofColumn, if_neg hj] at hkept

theorem exchange_spec (hp : p.On c) (hstart : p.ofRow.get start = none) {fuel : Nat}
    (hgrown : Grown c p start origin (x :: older)) (hfuel : older.length < fuel)
    (hsame : ∀ k ∈ x :: older, q.ofRow.get k = p.ofRow.get k) (hhole : q.HoleAt y)
    (hq : ∀ i k, q.ofRow.get i = some k → k ∈ c.ofRow.get i) (hxy : y ∈ c.ofRow.get x) :
    Exchanged c p start x y q (q.exchange origin fuel x y) := by
  -- the path goes back to rows reached before, whose columns are as they were
  induction fuel generalizing x y q older with
  | zero => omega
  | succ fuel ih =>
    have hx := hsame x List.mem_cons_self
    unfold exchange
    cases hgrown with
    | root hroot =>
      rw [hroot]
      exact .last hhole hq hxy (hx.trans hstart)
    | @via _ w _ z hold hxolder hw hvia hz hcross =>
      rw [← hp.agree] at hz
      rw [hvia, hx, hz]
      dsimp only
      rw [hz] at hx
      obtain ⟨older', hsuffix, hgrown'⟩ := hold.of_mem hw
      have hlength := hsuffix.length_le
      rw [List.length_cons] at hlength
      refine .cons hx ((hhole x z).mp hx).1 ((hp.agree x z).mp hz) hcross ?_
      apply ih hgrown' (by omega)
      · intro k hk
        have hkolder := hsuffix.subset hk
        have hkx : k ≠ x := fun heq => hxolder (heq ▸ hkolder)
        rw [pair_ofRow, if_neg hkx]
        exact hsame k (List.mem_cons_of_mem _ hkolder)
      · exact hhole.pair_of_some hx
      · exact pair_crossing hq hxy
      · exact hcross

/-! ## What an attempt keeps -/

structure Extends (c : Crossings n) (p q : Pairing n) : Prop where
  rows : ∀ i, (p.ofRow.get i).isSome → (q.ofRow.get i).isSome
  columns : ∀ j, (p.ofColumn.get j).isSome → (q.ofColumn.get j).isSome
  closed : ∀ D, p.Closed c D → q.Closed c D

theorem Extends.refl (p : Pairing n) : p.Extends c p := ⟨fun _ h => h, fun _ h => h, fun _ h => h⟩

theorem Extends.trans (h : p.Extends c q) (h' : q.Extends c b) : p.Extends c b :=
  ⟨fun i hi => h'.rows i (h.rows i hi), fun j hj => h'.columns j (h.columns j hj),
    fun D hD => h'.closed D (h.closed D hD)⟩

def Tried (c : Crossings n) (p : Pairing n) (start : Fin n) : Prop :=
  (p.ofRow.get start).isSome ∨ ∃ D, start ∈ D ∧ p.Closed c D

theorem Tried.extends (h : p.Tried c start) (hq : p.Extends c q) : q.Tried c start := by
  cases h with
  | inl hpaired => exact .inl (hq.rows start hpaired)
  | inr hclosed =>
    obtain ⟨D, hstart, hD⟩ := hclosed
    exact .inr ⟨D, hstart, hq.closed D hD⟩

structure Attempted (c : Crossings n) (p : Pairing n) (start : Fin n) (q : Pairing n) : Prop where
  on : q.On c
  keeps : p.Extends c q
  tried : q.Tried c start

theorem Exchanged.extends (h : Exchanged c p start x y p b) (hxy : y ∈ c.ofRow.get x) (hy : p.ofColumn.get y = none) :
    p.Extends c b where
  rows i hi := (h.rows i).mpr (.inl hi)
  columns j hj := (h.columns j).mpr (.inl hj)
  closed D hD := by
    have hx : x ∉ D := by
      intro hx
      obtain ⟨i, -, hi⟩ := hD x hx y hxy
      rw [hy] at hi
      cases hi
    intro k hk j hj
    obtain ⟨i, hi, hij⟩ := hD k hk j hj
    have hjy : j ≠ y := by
      intro hjy
      rw [hjy, hy] at hij
      cases hij
    refine ⟨i, hi, ?_⟩
    cases h.kept D hD hx j hjy with
    | inl hsame => rw [hsame, hij]
    | inr hout =>
      obtain ⟨r, hr, hjr⟩ := hout
      rw [hij, Option.some.injEq] at hjr
      exact absurd (hjr ▸ hi) hr

theorem Exchanged.attempted (h : Exchanged c p start x y p b) (hxy : y ∈ c.ofRow.get x)
    (hy : p.ofColumn.get y = none) : p.Attempted c start b :=
  ⟨h.on, h.extends hxy hy, .inl ((h.rows start).mpr (.inr rfl))⟩

end Pairing

/-! ## The search -/

namespace Reach

variable {r r' : Reach n}

structure Searched (c : Crossings n) (p : Pairing n) (start : Fin n) (done : List (Fin n)) (r : Reach n) : Prop where
  grown : Grown c p start r.origin (done ++ r.queue).reverse
  labelled : ∀ i, r.origin.get i = none ↔ i ∉ done ++ r.queue

theorem Searched.push (h : r.Searched c p start done) (hx : x ∈ done) (hy : y ∈ c.ofRow.get x)
    (hi : p.ofColumn.get y = some i) (hnew : r.origin.get i = none) :
    Searched c p start done ⟨r.origin.put i (some (.via x)), r.queue ++ [i]⟩ := by
  have hput : ∀ k, (r.origin.put i (some (.via x))).get k = if k = i then some (.via x) else r.origin.get k :=
    fun k => Vector.get_put ..
  have hinew := (h.labelled i).mp hnew
  constructor
  · have hlast : (done ++ (r.queue ++ [i])).reverse = i :: (done ++ r.queue).reverse := by simp
    dsimp only
    rw [hlast]
    refine .via (h.grown.congr fun k hk => ?_) (by rwa [List.mem_reverse]) (by simp [hx]) (by simp [hput]) hi hy
    have hki : k ≠ i := fun heq => hinew (heq ▸ List.mem_reverse.mp hk)
    rw [hput, if_neg hki]
  · intro k
    rw [hput, ← List.append_assoc, List.mem_append, List.mem_singleton]
    by_cases hk : k = i
    · simp [hk]
    · simpa [hk] using h.labelled k

def Leads (c : Crossings n) (p : Pairing n) (start : Fin n) (done : List (Fin n)) (r : Reach n) (ys : List (Fin n)) :
    Found n → Prop
  | .free y => y ∈ ys ∧ p.ofColumn.get y = none
  | .more r' => r'.Searched c p start done ∧ r.queue ⊆ r'.queue ∧
      ∀ y ∈ ys, ∃ i ∈ done ++ r'.queue, p.ofColumn.get y = some i

theorem Leads.cons {ys : List (Fin n)} {found : Found n} (hi : p.ofColumn.get y = some i) (hmem : i ∈ done ++ r'.queue)
    (hsub : r.queue ⊆ r'.queue) (h : Leads c p start done r' ys found) : Leads c p start done r (y :: ys) found := by
  cases found with
  | free z => exact ⟨List.mem_cons_of_mem _ h.1, h.2⟩
  | more t =>
    obtain ⟨hsearched, hsub', hall⟩ := h
    refine ⟨hsearched, List.Subset.trans hsub hsub', List.forall_mem_cons.mpr ⟨⟨i, ?_, hi⟩, hall⟩⟩
    rw [List.mem_append] at hmem ⊢
    exact hmem.imp_right fun h => hsub' h

theorem expand_spec {ys : List (Fin n)} (hx : x ∈ done) (hys : ∀ y ∈ ys, y ∈ c.ofRow.get x)
    (h : r.Searched c p start done) : Leads c p start done r ys (expand p x ys r) := by
  induction ys generalizing r with
  | nil => exact ⟨h, List.Subset.refl _, by simp⟩
  | cons y ys ih =>
    have hrest : ∀ z ∈ ys, z ∈ c.ofRow.get x := fun z hz => hys z (List.mem_cons_of_mem _ hz)
    unfold expand
    split
    · rename_i hy
      exact ⟨List.mem_cons_self, hy⟩
    · rename_i i hi
      split
      · rename_i o ho
        have hold : i ∈ done ++ r.queue := by
          by_contra hnew
          rw [(h.labelled i).mpr hnew] at ho
          cases ho
        exact .cons hi hold (List.Subset.refl _) (ih hrest h)
      · rename_i hnew
        have hpush := h.push hx (hys y List.mem_cons_self) hi hnew
        exact .cons hi (by simp) (List.subset_append_left _ _) (ih hrest hpush)

def Open (c : Crossings n) (p : Pairing n) (done : List (Fin n)) (r : Reach n) : Prop :=
  ∀ x ∈ done, ∀ y ∈ c.ofRow.get x, ∃ i ∈ done ++ r.queue, p.ofColumn.get y = some i

/-- With nothing left in the queue, the rows reached are closed. -/
theorem Searched.attempted (hp : p.On c) (h : r.Searched c p start done) (hopen : r.Open c p done)
    (hqueue : r.queue = []) : p.Attempted c start p := by
  refine ⟨hp, .refl p, .inr ⟨{i | i ∈ done}, ?_, ?_⟩⟩
  · simpa [hqueue] using h.grown.start_mem
  · intro x hx y hy
    simpa [hqueue] using hopen x hx y hy

theorem Searched.next {queue : List (Fin n)} (h : r.Searched c p start done) (hqueue : r.queue = x :: queue) :
    Searched c p start (done ++ [x]) { r with queue } := by
  have hall : done ++ [x] ++ queue = done ++ r.queue := by simp [hqueue]
  exact ⟨by simpa only [hall] using h.grown, by simpa only [hall] using h.labelled⟩

theorem Searched.exchange (hp : p.On c) (hstart : p.ofRow.get start = none) (h : r.Searched c p start done)
    (hx : x ∈ done ++ r.queue) (hxy : y ∈ c.ofRow.get x) (hy : p.ofColumn.get y = none) :
    p.Attempted c start (p.exchange r.origin n x y) := by
  obtain ⟨older, -, hgrown⟩ := h.grown.of_mem (List.mem_reverse.mpr hx)
  have hexchanged := Pairing.exchange_spec hp hstart hgrown hgrown.length_le (fun _ _ => rfl) (hp.holeAt hy)
    hp.crossing hxy
  exact hexchanged.attempted hxy hy

theorem Open.next {queue : List (Fin n)} (h : r.Open c p done) (hqueue : r.queue = x :: queue)
    (hsub : queue ⊆ r'.queue)
    (hx : ∀ y ∈ c.ofRow.get x, ∃ i ∈ done ++ [x] ++ r'.queue, p.ofColumn.get y = some i) :
    r'.Open c p (done ++ [x]) := by
  intro k hk y hy
  rcases List.mem_append.mp hk with hk | hk
  · obtain ⟨i, hi, hyi⟩ := h k hk y hy
    refine ⟨i, ?_, hyi⟩
    rw [hqueue, List.append_cons, List.mem_append] at hi
    rw [List.mem_append]
    exact hi.imp_right fun h => hsub h
  · obtain rfl := List.mem_singleton.mp hk
    exact hx y hy

theorem search_spec (hp : p.On c) (hstart : p.ofRow.get start = none) {fuel : Nat} (h : r.Searched c p start done)
    (hopen : r.Open c p done) (hfuel : n ≤ done.length + fuel) : p.Attempted c start (search c p fuel r) := by
  induction fuel generalizing r done with
  | zero =>
    have hlength := h.grown.length_le
    rw [List.length_reverse, List.length_append] at hlength
    exact h.attempted hp hopen (List.length_eq_zero_iff.mp (by omega))
  | succ fuel ih =>
    unfold search
    split
    · rename_i hqueue
      exact h.attempted hp hopen hqueue
    · rename_i x queue hqueue
      have hleads := expand_spec List.mem_concat_self (fun y hy => hy) (h.next hqueue)
      split
      · rename_i y hfound
        rw [hfound] at hleads
        exact h.exchange hp hstart (by simp [hqueue]) hleads.1 hleads.2
      · rename_i r' hfound
        rw [hfound] at hleads
        obtain ⟨hsearched, hsub, hall⟩ := hleads
        exact ih hsearched (hopen.next hqueue hsub hall) (by simp; omega)

end Reach

/-! ## Attempts -/

namespace Pairing

theorem augment_spec (hp : p.On c) (i : Fin n) : p.Attempted c i (p.augment c i) := by
  unfold augment
  split
  · rename_i j hi
    exact ⟨hp, .refl p, .inl (by simp [hi])⟩
  · rename_i hi
    have hput : ∀ k, ((Vector.replicate n none).put i (some (Origin.root (n := n)))).get k =
        if k = i then some .root else none := by
      intro k
      rw [Vector.get_put]
      simp [Vector.get]
    have hsearched : Reach.Searched c p i [] ⟨(Vector.replicate n none).put i (some .root), [i]⟩ := by
      constructor
      · exact .root (by simp [hput])
      · intro k
        simp [hput]
    exact Reach.search_spec hp hi hsearched (by simp [Reach.Open]) (by simp)

theorem augmentEach_spec (hp : p.On c) (rows : List (Fin n)) :
    (rows.foldl (augment c) p).On c ∧ p.Extends c (rows.foldl (augment c) p) ∧
      ∀ i ∈ rows, (rows.foldl (augment c) p).Tried c i := by
  induction rows generalizing p with
  | nil => exact ⟨hp, .refl p, by simp⟩
  | cons i rows ih =>
    have hfirst := augment_spec hp i
    obtain ⟨hon, hextends, hall⟩ := ih hfirst.on
    exact ⟨hon, hfirst.keeps.trans hextends, List.forall_mem_cons.mpr ⟨hfirst.tried.extends hextends, hall⟩⟩

end Pairing

end SigmaMethod
