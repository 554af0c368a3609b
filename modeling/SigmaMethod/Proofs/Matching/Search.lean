import SigmaMethod.Proofs.Matching.Assignment
import SigmaMethod.Proofs.Matching.Frontier
import SigmaMethod.Proofs.Outcome

/-!
# The search of an augmenting path

The columns a search has scanned form a tree: each was labelled from the start row or from the row of a column scanned
before it, at the distance over that row. All columns next to a row on the searched side have a label. When matched
entries are least in their rows the distances are shortest ones: no label exceeds the offer of a row on the searched
side, and columns are scanned in the order of their distance. The tree does not need that; it is what the search finds
with any potentials.
-/

namespace SigmaMethod

variable {n : Nat}

namespace Scratch

structure WF (s : Scratch n) : Prop where
  placed : s.frontier.Placed
  label : ∀ j l, s.label.get j = some l → j ∈ s.touched
  scanned : ∀ j, s.scanned.get j = true → j ∈ s.touched

structure Coupled (s : Scratch n) : Prop where
  frontier : s.frontier.WF
  label : ∀ j l, s.label.get j = some l → j ∈ s.touched
  scanned : ∀ j, s.scanned.get j = true → ∃ l, s.label.get j = some l
  find? : ∀ j, s.frontier.find? j =
    if s.scanned.get j then none else (s.label.get j).map fun l => ⟨l.dist, l.seq⟩

variable {s t : Scratch n} {j k : Fin n}

theorem Coupled.wf (h : s.Coupled) : s.WF where
  placed := h.frontier.placed
  label := h.label
  scanned j hj := by
    obtain ⟨l, hl⟩ := h.scanned j hj
    exact h.label j l hl

theorem empty_wf (n : Nat) : (empty n).WF where
  placed := (Frontier.empty_wf n).placed
  label j l h := by simp [empty, Vector.get] at h
  scanned j h := by simp [empty, Vector.get] at h

theorem WF.clear_label (h : s.WF) (j : Fin n) : s.clear.label.get j = none := by
  obtain ⟨hin, hout⟩ := Vector.get_foldl_put id (none : Option (Label n)) s.touched.toList s.label j
  rw [List.map_id] at hin hout
  rw [clear, ← Array.foldl_toList]
  by_cases hj : j ∈ s.touched.toList
  · exact hin hj
  · refine (hout hj).trans (Option.eq_none_iff_forall_ne_some.mpr fun l hl => hj ?_)
    exact Array.mem_toList_iff.mpr (h.label j l hl)

theorem WF.clear_scanned (h : s.WF) (j : Fin n) : s.clear.scanned.get j = false := by
  obtain ⟨hin, hout⟩ := Vector.get_foldl_put id false s.touched.toList s.scanned j
  rw [List.map_id] at hin hout
  change (s.touched.foldl (fun scanned (j : Fin n) => scanned.put j false) s.scanned).get j = false
  rw [← Array.foldl_toList]
  by_cases hj : j ∈ s.touched.toList
  · exact hin hj
  · refine (hout hj).trans (Bool.eq_false_iff.mpr fun hs => hj ?_)
    exact Array.mem_toList_iff.mpr (h.scanned j hs)

theorem WF.clear_coupled (h : s.WF) : s.clear.Coupled where
  frontier := h.placed.clear_wf
  label j l hl := by rw [h.clear_label] at hl; cases hl
  scanned j hj := by rw [h.clear_scanned] at hj; cases hj
  find? j := by
    rw [h.clear_scanned, h.clear_label]
    exact h.placed.find?_clear j

/-! ## Offering distances -/

theorem Coupled.enter (h : s.Coupled) {l : Label n} (hj : s.scanned.get j = false) (hmem : j ∈ s.touched)
    (hl : ∀ old, s.label.get j = some old → l.dist < old.dist ∧ l.seq = old.seq) : (s.enter j l).Coupled := by
  have hfind : (s.enter j l).frontier.WF ∧ ∀ k, (s.enter j l).frontier.find? k =
      if k = j then some ⟨l.dist, l.seq⟩ else s.frontier.find? k := by
    have hold := h.find? j
    rw [hj] at hold
    cases hlabel : s.label.get j with
    | none =>
      rw [hlabel] at hold
      exact (h.frontier.pushOrDecrease_of_none _ hold).2
    | some old =>
      rw [hlabel] at hold
      obtain ⟨hdist, hseq⟩ := hl old hlabel
      have hbefore : Key.Before ⟨l.dist, l.seq⟩ ⟨old.dist, old.seq⟩ := .inl hdist
      obtain ⟨-, hwf, hget⟩ := h.frontier.pushOrDecrease_of_some ⟨l.dist, l.seq⟩ hold
      refine ⟨hwf, fun k => ?_⟩
      have hk := hget k
      simp only [hbefore, and_true] at hk
      exact hk
  have hlabels : ∀ k, (s.enter j l).label.get k = if k = j then some l else s.label.get k :=
    fun k => Vector.get_put ..
  constructor
  · exact hfind.1
  · intro k l' hk
    rw [hlabels] at hk
    split at hk
    · rename_i hkj
      exact hkj ▸ hmem
    · exact h.label k l' hk
  · intro k hk
    rw [hlabels]
    split
    · exact ⟨l, rfl⟩
    · exact h.scanned k hk
  · intro k
    rw [hfind.2, hlabels]
    change _ = if s.scanned.get k then none else _
    by_cases hk : k = j
    · simp [hk, hj]
    · simp only [hk, ite_false]
      exact h.find? k

theorem relax_scanned (s : Scratch n) (j : Fin n) (dist : Int) (pred : Fin n) :
    (s.relax j dist pred).scanned = s.scanned := by
  unfold relax
  split
  · rfl
  · split <;> rfl

theorem relax_label_ne (s : Scratch n) {j k : Fin n} (hk : k ≠ j) (dist : Int) (pred : Fin n) :
    (s.relax j dist pred).label.get k = s.label.get k := by
  unfold relax
  split
  · simp [enter, Vector.get_put, hk]
  · split
    · simp [enter, Vector.get_put, hk]
    · rfl

theorem relax_label (s : Scratch n) (j : Fin n) (dist : Int) (pred : Fin n) :
    ∃ l, (s.relax j dist pred).label.get j = some l ∧
      (l.dist = dist ∧ l.pred = pred ∧ (∀ old, s.label.get j = some old → dist < old.dist) ∨
        s.label.get j = some l ∧ l.dist ≤ dist) := by
  unfold relax
  split
  · rename_i hnone
    exact ⟨⟨dist, s.touched.size, pred⟩, by simp [enter, Vector.get_put], .inl ⟨rfl, rfl, by simp [hnone]⟩⟩
  · rename_i l hsome
    split
    · rename_i hlt
      exact ⟨⟨dist, l.seq, pred⟩, by simp [enter, Vector.get_put], .inl ⟨rfl, rfl, by simpa [hsome] using hlt⟩⟩
    · exact ⟨l, hsome, .inr ⟨hsome, by omega⟩⟩

theorem relax_lower (s : Scratch n) (j : Fin n) (dist : Int) (pred : Fin n) {l : Label n}
    (hl : s.label.get k = some l) :
    ∃ l', (s.relax j dist pred).label.get k = some l' ∧ l'.dist ≤ l.dist := by
  by_cases hk : k = j
  · subst hk
    obtain ⟨l', hl', hcase⟩ := relax_label s k dist pred
    refine ⟨l', hl', ?_⟩
    rcases hcase with ⟨hd, -, hlt⟩ | ⟨hold, -⟩
    · have := hlt l hl
      omega
    · rw [hl] at hold
      cases hold
      exact Int.le_refl _
  · exact ⟨l, (relax_label_ne s hk dist pred).trans hl, Int.le_refl _⟩

theorem Coupled.relax (h : s.Coupled) (hj : s.scanned.get j = false) (dist : Int) (pred : Fin n) :
    (s.relax j dist pred).Coupled := by
  unfold Scratch.relax
  split
  · rename_i hnone
    have hpush : ({ s with touched := s.touched.push j } : Scratch n).Coupled :=
      { h with label := fun k l hk => Array.mem_push_of_mem j (h.label k l hk) }
    exact hpush.enter hj Array.mem_push_self fun old hold => by
      rw [show s.label.get j = some old from hold] at hnone
      cases hnone
  · rename_i l hsome
    split
    · rename_i hlt
      refine h.enter hj (h.label j l hsome) fun old hold => ?_
      rw [hsome] at hold
      cases hold
      exact ⟨hlt, rfl⟩
    · exact h

theorem Coupled.pop (h : s.Coupled) {key : Key} {frontier : Frontier n}
    (hpop : s.frontier.pop = some (j, key, frontier)) :
    s.scanned.get j = false ∧ (∃ l, s.label.get j = some l ∧ l.dist = key.dist) ∧
      ({ s with frontier, scanned := s.scanned.put j true } : Scratch n).Coupled := by
  obtain ⟨hfind, -, hwf, hrest⟩ := h.frontier.pop_eq_some hpop
  rw [h.find?] at hfind
  split at hfind
  · cases hfind
  rename_i hscanned
  obtain ⟨l, hl, hkey⟩ := Option.map_eq_some_iff.mp hfind
  have hput : ∀ k, (s.scanned.put j true).get k = if k = j then true else s.scanned.get k :=
    fun k => Vector.get_put ..
  refine ⟨Bool.eq_false_iff.mpr hscanned, ⟨l, hl, by rw [← hkey]⟩, hwf, h.label, fun k hk => ?_, fun k => ?_⟩
  · dsimp only at hk
    rw [hput] at hk
    split at hk
    · subst ‹k = j›
      exact ⟨l, hl⟩
    · exact h.scanned k hk
  · dsimp only
    rw [hrest, hput]
    by_cases hk : k = j
    · simp [hk]
    · simp only [hk, ite_false]
      exact h.find? k

structure Offered (v : Vector Int n) (i : Fin n) (b : Int) (s t : Scratch n) (done : List (Fin n × Int)) : Prop where
  coupled : t.Coupled
  scanned : t.scanned = s.scanned
  kept : ∀ k l, t.label.get k = some l → s.label.get k = some l ∨
    s.scanned.get k = false ∧ l.pred = i ∧ ∃ x, (k, x) ∈ done ∧ l.dist = b + x - v.get k
  lower : ∀ k l, s.label.get k = some l → ∃ l', t.label.get k = some l' ∧ l'.dist ≤ l.dist
  reached : ∀ k x, (k, x) ∈ done → s.scanned.get k = false → ∃ l, t.label.get k = some l ∧ l.dist ≤ b + x - v.get k

variable {v : Vector Int n} {i : Fin n} {b x : Int} {done : List (Fin n × Int)}

theorem Offered.nil (h : s.Coupled) : Offered v i b s s [] where
  coupled := h
  scanned := rfl
  kept _ _ hl := .inl hl
  lower _ l hl := ⟨l, hl, Int.le_refl _⟩
  reached _ _ hk := nomatch hk

theorem Offered.skip (h : Offered v i b s t done) (hk : s.scanned.get k = true) :
    Offered v i b s t (done ++ [(k, x)]) where
  coupled := h.coupled
  scanned := h.scanned
  kept j l hl := (h.kept j l hl).imp_right fun ⟨hj, hp, y, hy, hd⟩ => ⟨hj, hp, y, List.mem_append_left _ hy, hd⟩
  lower := h.lower
  reached j y hy hj := by
    rcases List.mem_append.mp hy with hy | hy
    · exact h.reached j y hy hj
    · cases List.mem_singleton.mp hy
      rw [hk] at hj
      cases hj

theorem Offered.relax (h : Offered v i b s t done) (hk : s.scanned.get k = false) :
    Offered v i b s (t.relax k (b + x - v.get k) i) (done ++ [(k, x)]) := by
  -- the label of `k` is the shorter one of the offer and the label before
  obtain ⟨l, hl, hcase⟩ := relax_label t k (b + x - v.get k) i
  have hdist : l.dist ≤ b + x - v.get k := by
    rcases hcase with ⟨hd, -, -⟩ | ⟨-, hd⟩ <;> omega
  constructor
  · exact h.coupled.relax (h.scanned ▸ hk) _ _
  · rw [relax_scanned, h.scanned]
  · intro j l' hl'
    by_cases hj : j = k
    · subst hj
      rw [hl] at hl'
      cases hl'
      rcases hcase with ⟨hd, hp, -⟩ | ⟨hold, -⟩
      · exact .inr ⟨hk, hp, x, by simp, hd⟩
      · exact (h.kept j l hold).imp_right fun ⟨_, hp, y, hy, hd⟩ => ⟨hk, hp, y, List.mem_append_left _ hy, hd⟩
    · rw [relax_label_ne t hj] at hl'
      exact (h.kept j l' hl').imp_right fun ⟨hs, hp, y, hy, hd⟩ => ⟨hs, hp, y, List.mem_append_left _ hy, hd⟩
  · intro j l' hl'
    obtain ⟨l₀, hl₀, hle⟩ := h.lower j l' hl'
    obtain ⟨l₁, hl₁, hle₁⟩ := relax_lower t k (b + x - v.get k) i hl₀
    exact ⟨l₁, hl₁, Int.le_trans hle₁ hle⟩
  · intro j y hy hj
    rcases List.mem_append.mp hy with hy | hy
    · obtain ⟨l₀, hl₀, hle⟩ := h.reached j y hy hj
      obtain ⟨l₁, hl₁, hle₁⟩ := relax_lower t k (b + x - v.get k) i hl₀
      exact ⟨l₁, hl₁, Int.le_trans hle₁ hle⟩
    · cases List.mem_singleton.mp hy
      exact ⟨l, hl, hdist⟩

theorem Offered.label_of_scanned (h : Offered v i b s t done) (hk : s.scanned.get k = true) {l : Label n}
    (hl : s.label.get k = some l) : t.label.get k = some l := by
  obtain ⟨l', hl', -⟩ := h.lower k l hl
  rcases h.kept k l' hl' with hold | ⟨hs, -⟩
  · rw [hl', ← hold, hl]
  · rw [hk] at hs
    cases hs

end Scratch

variable {m : Signature n} {a : DualAssignment n} {start : Fin n}

theorem Signature.reach_spec {s : Scratch n} (hs : s.Coupled) (hblank : ∀ j, s.scanned.get j = false)
    (v : Vector Int n) (i : Fin n) :
    Yields (m.reach v i s) fun t => Scratch.Offered v i 0 s t (m.rows.get i).entries := by
  unfold reach
  refine Delivers.foldlM_done (I := fun done t => Scratch.Offered v i 0 s t done) (Scratch.Offered.nil hs) ?_
  intro done e t _ h
  refine .bind (.fit rfl) fun d hd => .pure ?_
  have := h.relax (x := e.2) (hblank e.1)
  rwa [Int.zero_add, hd] at this

theorem Signature.scanRow_spec {s : Scratch n} (hs : s.Coupled) (v : Vector Int n) (i : Fin n) (dist h : Int) :
    Yields (m.scanRow v i dist h s) fun t => Scratch.Offered v i (dist - h) s t (m.rows.get i).entries := by
  unfold scanRow
  refine Delivers.foldlM_done (I := fun done t => Scratch.Offered v i (dist - h) s t done) (Scratch.Offered.nil hs) ?_
  intro done e t _ ht
  dsimp only
  split
  · rename_i hscanned
    exact .pure (ht.skip (ht.scanned ▸ hscanned))
  · rename_i hscanned
    refine .bind (.fit rfl) fun d₁ h₁ => .bind (.fit rfl) fun d₂ h₂ => .bind (.fit rfl) fun d₃ h₃ => .pure ?_
    have := ht.relax (k := e.1) (x := e.2) (ht.scanned ▸ Bool.eq_false_iff.mpr hscanned)
    rwa [show dist - h + e.2 - v.get e.1 = d₃ by omega] at this

end SigmaMethod
