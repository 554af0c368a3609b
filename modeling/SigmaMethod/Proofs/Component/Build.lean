import SigmaMethod.Proofs.Component.Exit

/-!
# What a finished component knows

An exit matching solves the equations of a component for its private variables and one public variable, at entries of
the component. `build_exits` says of every builder which exits can be taken, and that the finished component holds a
matching of least cost for each of these and nothing for the others.
-/

namespace SigmaMethod

namespace ComponentBuilder

variable {b : ComponentBuilder} {exit : Nat} {picks : List (Nat × Int)}

structure ExitMatching (b : ComponentBuilder) (exit : Nat) (picks : List (Nat × Int)) : Prop where
  entry : ∀ i pick, picks[i]? = some pick → (i, pick.1, pick.2) ∈ b.entries
  columns : (picks.map Prod.fst).Perm ((b.privates + exit) :: List.range b.privates)

theorem exitPicks_iff : ExitPicks b.rows b.privates exit picks ↔ b.ExitMatching exit picks := by
  have hrows : b.rows.length = b.privates + 1 := by simp [rows]
  constructor
  · intro h
    refine ⟨fun i pick hpick => ?_, h.columns⟩
    obtain ⟨hi, rfl⟩ := List.getElem?_eq_some_iff.mp hpick
    have hentry := List.Forall₂.get h.solved (by rw [h.solved.length_eq]; exact hi) hi
    rw [← costIn_eq_some_iff b.entries_functional]
    simpa [rows] using hentry
  · intro h
    have hpicks : picks.length = b.privates + 1 := by simpa using h.columns.length_eq
    refine ⟨List.forall₂_iff_get.mpr ⟨hrows.trans hpicks.symm, fun i _ hi => ?_⟩, h.columns⟩
    have hentry := h.entry i picks[i] (List.getElem?_eq_getElem hi)
    rw [← costIn_eq_some_iff b.entries_functional] at hentry
    simpa [rows] using hentry

structure CheapestExit (b : ComponentBuilder) (exit : Nat) (picks : List (Nat × Int)) : Prop where
  matching : b.ExitMatching exit picks
  least : ∀ picks', b.ExitMatching exit picks' → (picks.map Prod.snd).sum ≤ (picks'.map Prod.snd).sum

theorem Finishes.cheapestExit {c : Component} (h : b.Finishes c) (hexit : exit < b.publics) :
    (∃ picks, b.CheapestExit exit picks ∧ c.matching exit = .ok (some (picks.map Prod.fst)) ∧
        c.exitCost exit = .ok (some (picks.map Prod.snd).sum)) ∨
      (∀ picks, ¬ b.ExitMatching exit picks) ∧ c.matching exit = .ok none ∧ c.exitCost exit = .ok none := by
  obtain ⟨solved, hmatching, hcost, hsolved⟩ := h.exits exit hexit
  have hmatching' : c.matching exit = .ok (solved.map (·.1)) := by
    unfold Component.matching
    rw [checkIndex, if_pos (h.publics ▸ hexit), lookAt, hmatching]
    rfl
  have hcost' : c.exitCost exit = .ok (solved.map (·.2)) := by
    unfold Component.exitCost
    rw [checkIndex, if_pos (h.publics ▸ hexit), lookAt, hcost]
    rfl
  cases solved with
  | none => exact .inr ⟨fun picks hpicks => hsolved picks (exitPicks_iff.mpr hpicks), hmatching', hcost'⟩
  | some solved =>
    obtain ⟨picks, hpicks, hcolumns, htotal, hleast⟩ := hsolved
    refine .inl ⟨picks, ⟨exitPicks_iff.mp hpicks, fun picks' hpicks' => ?_⟩, ?_, ?_⟩
    · rw [← htotal]
      exact hleast picks' (exitPicks_iff.mpr hpicks')
    · rw [hmatching', Option.map_some, hcolumns]
    · rw [hcost', Option.map_some, htotal]

/-- **A finished component knows a matching of least cost for each exit that can be taken**, and it can be finished
unless there is none. -/
theorem build_exits (hb : b.Built) (hno : b.build ≠ .error .overflow) :
    ((∃ c, b.build = .ok c) ↔ ∃ exit < b.publics, ∃ picks, b.ExitMatching exit picks) ∧
      (∀ f, b.build = .error f →
        f = .refused (.compression (if b.publics = 0 then .noPublics else .singularForEveryPublic))) ∧
      ∀ c, b.build = .ok c → c.publics = b.publics ∧ c.privates = b.privates ∧ c.entries = b.entries ∧
        ∀ exit < b.publics,
          (∃ picks, b.CheapestExit exit picks ∧ c.matching exit = .ok (some (picks.map Prod.fst)) ∧
              c.exitCost exit = .ok (some (picks.map Prod.snd).sum)) ∨
            (∀ picks, ¬ b.ExitMatching exit picks) ∧ c.matching exit = .ok none ∧ c.exitCost exit = .ok none := by
  have hspec := build_finishes hb.inRange
  refine ⟨⟨fun ⟨c, hc⟩ => ?_, fun ⟨k, hk, picks, hpicks⟩ => ?_⟩, fun f hf => ?_, fun c hc => ?_⟩
  · obtain ⟨k, hk, picks, hpicks⟩ := (hspec.answer hc).available
    exact ⟨k, hk, picks, exitPicks_iff.mp hpicks⟩
  · obtain ⟨c, hc, -⟩ := hspec.exists_answer hno fun r hr => by
      cases hr with
      | noPublics hzero => omega
      | noExit _ hnone => exact hnone k hk picks (exitPicks_iff.mpr hpicks)
    exact ⟨c, hc⟩
  · obtain ⟨r, rfl, hr⟩ := hspec.exists_refusal hno hf
    cases hr with
    | noPublics hzero => rw [if_pos hzero]
    | noExit hpublics _ => rw [if_neg (by omega)]
  · have hfinishes := hspec.answer hc
    exact ⟨hfinishes.publics, hfinishes.privates, hfinishes.entries, fun k hk => hfinishes.cheapestExit hk⟩

/-- An integrator with a third public variable that none of its equations names. -/
def looseIntegrator : ComponentBuilder :=
  let b := ((setPublic 0 0 0).apply ((setPrivate 0 0 1).apply (.empty 3 1)).2).2
  ((setPublic 1 1 0).apply ((setPublic 1 0 0).apply b).2).2

theorem build_exits_looseIntegrator :
    looseIntegrator.Built ∧ looseIntegrator.build ≠ .error .overflow ∧
      ∃ c, looseIntegrator.build = .ok c ∧
        (∃ picks, looseIntegrator.CheapestExit 1 picks ∧ c.matching 1 = .ok (some (picks.map Prod.fst)) ∧
          c.exitCost 1 = .ok (some (picks.map Prod.snd).sum)) ∧
        (∀ picks, ¬ looseIntegrator.ExitMatching 2 picks) ∧ c.matching 2 = .ok none := by
  have hbuilt : looseIntegrator.Built :=
    .setPublic _ _ _ (.setPublic _ _ _ (.setPublic _ _ _ (.setPrivate _ _ _ (.empty 3 1))))
  have hno : looseIntegrator.build ≠ .error .overflow := by decide +kernel
  have hpicks : looseIntegrator.ExitMatching 1 [(0, -1), (2, 0)] := by
    refine ⟨fun i pick hpick => ?_, by decide⟩
    match i with
    | 0 =>
      cases hpick
      decide +kernel
    | 1 =>
      cases hpick
      decide +kernel
    | i + 2 => cases hpick
  obtain ⟨hiff, -, hok⟩ := build_exits hbuilt hno
  obtain ⟨c, hc⟩ := hiff.mpr ⟨1, by decide +kernel, _, hpicks⟩
  obtain ⟨-, -, -, hexits⟩ := hok c hc
  have hknown := (hexits 1 (by decide +kernel)).resolve_right fun h => h.1 _ hpicks
  have hnone : looseIntegrator.build.map (fun c => c.matching 2) = .ok (.ok none) := by decide +kernel
  rw [hc] at hnone
  have hmatching : c.matching 2 = .ok none := Except.ok.inj hnone
  refine ⟨hbuilt, hno, c, hc, hknown, ?_, hmatching⟩
  rcases hexits 2 (by decide +kernel) with ⟨picks, -, hpicks, -⟩ | ⟨hno, -⟩
  · rw [hmatching] at hpicks
    cases hpicks
  · exact hno

end ComponentBuilder

end SigmaMethod
