import SigmaMethod.Json.Records
import SigmaMethod.Proofs.Json.Fields

/-!
# Records come back from their texts

What is stored of a record is read as the same record: its codec is exact for the values that fit their machine types,
and writing, reading and writing again gives the first text.
-/

namespace SigmaMethod

/-! ## Records of machine numbers -/

def Incidence.Storable (e : Incidence) : Prop :=
  IsIndex e.equation ∧ IsIndex e.unknown ∧ InRange e.derivative

def Settings.Storable (s : Settings) : Prop := IsIndex s.sweeps

def Matching.Storable (s : Matching) : Prop :=
  InRange s.cost ∧ (∀ j ∈ s.columnOf, IsIndex j) ∧ (∀ i ∈ s.rowOf, IsIndex i) ∧ (∀ x ∈ s.u, InRange x) ∧
    ∀ x ∈ s.v, InRange x

def PartialMatching.Storable (p : PartialMatching) : Prop :=
  (∀ x ∈ p.u, InRange x) ∧ (∀ x ∈ p.v, InRange x) ∧ (∀ o ∈ p.columnOf, ∀ j ∈ o, IsIndex j) ∧
    ∀ o ∈ p.rowOf, ∀ i ∈ o, IsIndex i

def Layout.Storable (l : Layout) : Prop :=
  (∀ i ∈ l.componentRows, IsIndex i) ∧ (∀ j ∈ l.componentColumns, IsIndex j) ∧ (∀ p ∈ l.privates, IsIndex p) ∧
    ∀ o ∈ l.outerRows, ∀ i ∈ o, IsIndex i

def Analysis.Storable (a : Analysis) : Prop :=
  (∀ x ∈ a.c, InRange x) ∧ (∀ x ∈ a.d, InRange x) ∧ (∀ j ∈ a.columnOf, IsIndex j) ∧
    (∀ i ∈ a.rowOf, IsIndex i) ∧ InRange a.cost ∧ ∀ l ∈ a.layout, l.Storable

def Settings.only (s : Settings) (names : List String) : Settings :=
  let usual : Settings := {}
  ⟨if "row_reduction_sweeps" ∈ names then s.sweeps else usual.sweeps,
    if "verify_duals" ∈ names then s.verify else usual.verify,
    if "log_timing" ∈ names then s.logTiming else usual.logTiming⟩

section
variable (e : Incidence) (s : Settings) (m : Matching) (p : PartialMatching) (l : Layout) (a : Analysis)

instance : Decidable e.Storable := inferInstanceAs (Decidable (_ ∧ _))

instance : Decidable s.Storable := inferInstanceAs (Decidable (IsIndex _))

instance : Decidable m.Storable := inferInstanceAs (Decidable (_ ∧ _))

instance : Decidable p.Storable := inferInstanceAs (Decidable (_ ∧ _))

instance : Decidable l.Storable := inferInstanceAs (Decidable (_ ∧ _))

instance : Decidable a.Storable := inferInstanceAs (Decidable (_ ∧ _))

end

namespace Json

open Codec Fields

variable {α : Type}

/-! ## Choices -/

theorem partner_exact : partner.Exact fun o => ∀ k ∈ o, IsIndex k where
  sound := Case.read_sound <| List.forall_mem_cons.mpr ⟨Case.holding_sound fun s j rest hread k hk => by
      obtain rfl := Option.some.inj hk
      exact nat_exact.sound s j rest hread,
    List.forall_mem_singleton.mpr (Case.bare_sound nofun)⟩
  complete {o g s rest} ho hg hs _ := by
    cases o with
    | none =>
      cases hs
      exact Case.read_alone rfl rfl (by decide) hg
    | some k =>
      refine Case.read_object rfl (fun g s rest hg hs hrest => ?_) (by decide) hg hs
      exact Reader.map_ok (nat_exact.complete (ho k rfl) hg hs hrest)

theorem indexSpace_exact : indexSpace.Exact fun _ => True where
  sound _ _ _ _ := trivial
  complete {space g s rest} _ hg hs _ := by
    cases hs
    cases space <;> exact Case.read_alone rfl rfl (by decide) hg

/-! ## Records -/

theorem incidence_exact : incidence.Exact Incidence.Storable := by
  refine .congr (.map (codec_exact (by decide) ?_) (fun _ => rfl) fun _ _ => rfl) fun e => ?_
  · exact .required nat_exact <| .required nat_exact <| .required int_exact trivial
  · simp [Fit, required, nat_exact.reads_iff, int_exact.reads_iff, Incidence.Storable]

theorem settings_exact : settings.Exact Settings.Storable := by
  refine .congr (.map (codec_exact (by decide) ?_) (fun _ => rfl) fun _ _ => rfl) fun s => ?_
  · exact .optional nat_exact (by decide) <| .optional bool_exact trivial <| .optional bool_exact trivial trivial
  · simp [Fit, Fields.optional, nat_exact.reads_iff, bool_exact.reads_iff, Settings.Storable]

theorem matching_exact : matching.Exact Matching.Storable := by
  have hindices := array_exact nat_exact
  have hcosts := array_exact int_exact
  refine .congr (.map (codec_exact (by decide) ?_) (fun _ => rfl) fun _ _ => rfl) fun s => ?_
  · exact .required int_exact <| .required hindices <| .required hindices <| .required hcosts <|
      .required hcosts trivial
  · simp [Fit, required, int_exact.reads_iff, hindices.reads_iff, hcosts.reads_iff, Matching.Storable]

theorem partialMatching_exact : partialMatching.Exact PartialMatching.Storable := by
  have hcosts := array_exact int_exact
  have hpartners := array_exact partner_exact
  refine .congr (.map (codec_exact (by decide) ?_) (fun _ => rfl) fun _ _ => rfl) fun p => ?_
  · exact .required hcosts <| .required hcosts <| .required hpartners <| .required hpartners trivial
  · simp [Fit, required, hcosts.reads_iff, hpartners.reads_iff, PartialMatching.Storable]

theorem layout_exact : layout.Exact Layout.Storable := by
  have hindices := array_exact nat_exact
  have hrows := array_exact (option_exact nat_exact nofun)
  refine .congr (.map (codec_exact (by decide) ?_) (fun _ => rfl) fun _ _ => rfl) fun l => ?_
  · exact .required hindices <| .required hindices <| .required hindices <| .required hrows trivial
  · simp [Fit, required, hindices.reads_iff, hrows.reads_iff, Layout.Storable]

theorem analysis_exact : analysis.Exact Analysis.Storable := by
  have hindices := array_exact nat_exact
  have hcosts := array_exact int_exact
  have hlayout := option_exact layout_exact nofun
  refine .congr (.map (codec_exact (by decide) ?_) (fun _ => rfl) fun _ _ => rfl) fun a => ?_
  · refine .required hcosts <| .required hcosts <| .required hindices <| .required hindices <|
      .required int_exact ⟨hlayout.reads, ?_, ?_, trivial⟩
    · rintro l ⟨⟩
      exact hlayout.reads_iff.mpr nofun
    · intro l hl
      rw [Option.isNone_iff_eq_none.mp hl]
  · simp [Fit, required, hcosts.reads_iff, hindices.reads_iff, int_exact.reads_iff, hlayout.reads_iff,
      Analysis.Storable]

/-! ## Fields left out -/

theorem analysis_tree (a : Analysis) : ∃ ms, analysis.tree a = .object ms ∧
    ("inflation" ∈ ms.map Prod.fst ↔ a.layout ≠ none) := by
  refine ⟨_, rfl, ?_⟩
  cases h : a.layout <;> simp [members, required, h]

theorem settings_of_members {s : Settings} {all ms : List (String × Tree)} {text : List Char} (hs : s.Storable)
    (hall : settings.tree s = .object all) (hms : ∀ m ∈ ms, m ∈ all) (hnodup : (ms.map Prod.fst).Nodup)
    (htext : Spells (.object ms) text) :
    settings.decode (String.ofList text) = .ok (s.only (ms.map Prod.fst)) := by
  obtain rfl := Tree.object.inj hall
  refine decode_members (by decide) ?_ (fun _ => rfl) ?_ (fun m hm => members_sublist.subset (hms m hm)) hnodup ?_
    htext
  · exact .optional nat_exact (by decide) <| .optional bool_exact trivial <| .optional bool_exact trivial trivial
  · simpa [Fit, Fields.optional, nat_exact.reads_iff, bool_exact.reads_iff, Settings.Storable] using hs
  · simp only [Fills, Fields.optional, List.mem_reverse, Settings.only]
    refine ⟨?_, ?_, ?_, trivial⟩ <;> split <;> simp [*]

/-! ## Round trips -/

/-- Every text of `a` reads as `a`; so do the compact one that is stored and the indented one that is shown, with its
line end. -/
def Codec.Restores (c : Codec α) (a : α) : Prop :=
  (∀ text, Spells (c.tree a) text → c.decode (String.ofList text) = .ok a) ∧ c.decode (c.encode a) = .ok a ∧
    ∀ level, c.decode (String.ofList ((c.tree a).indented level ++ ['\n'])) = .ok a

def Codec.Stores (c : Codec α) (P : α → Prop) : Prop :=
  (∀ a, P a → c.Restores a) ∧ ∀ text a, c.decode text = .ok a → P a ∧ c.Restores a

theorem Codec.Exact.stores {c : Codec α} {P : α → Prop} (h : c.Exact P) : c.Stores P := by
  have hrestores : ∀ a, P a → c.Restores a := by
    intro a ha
    have htexts : ∀ text, Spells (c.tree a) text → c.decode (String.ofList text) = .ok a := by
      intro text htext
      have := h.decode_eq ha htext .nil
      rwa [List.append_nil] at this
    refine ⟨htexts, htexts _ (c.tree a).spells_compact, fun level => ?_⟩
    exact h.decode_eq ha ((c.tree a).spells_indented level) (by simp [Gap, isBlank])
  exact ⟨hrestores, fun text a htext => ⟨h.of_decode htext, hrestores a (h.of_decode htext)⟩⟩

/-- **Records come back from their texts.** Every analysis, matching, partial matching, layout, incidence, partner,
index space and settings whose numbers fit their machine types is read back from what is written for it, and a text that
is read gives such a record, so that writing it, reading it and writing it again is stable. An analysis without a layout
is written without that field, and so comes back without one. Settings are read from any selection of their members, in
any order and with any blanks; the other fields have their defaults. -/
theorem records_round_trip :
    analysis.Stores Analysis.Storable ∧ matching.Stores Matching.Storable ∧
      partialMatching.Stores PartialMatching.Storable ∧ layout.Stores Layout.Storable ∧
      incidence.Stores Incidence.Storable ∧ partner.Stores (fun o => ∀ k ∈ o, IsIndex k) ∧
      indexSpace.Stores (fun _ => True) ∧ settings.Stores Settings.Storable ∧
      (∀ a : Analysis, ∃ ms, analysis.tree a = .object ms ∧
        ("inflation" ∈ ms.map Prod.fst ↔ a.layout ≠ none)) ∧
      ∀ (s : Settings) (all ms : List (String × Tree)) (text : List Char), s.Storable →
        settings.tree s = .object all → (∀ m ∈ ms, m ∈ all) → (ms.map Prod.fst).Nodup →
        Spells (.object ms) text →
        settings.decode (String.ofList text) = .ok (s.only (ms.map Prod.fst)) :=
  ⟨analysis_exact.stores, matching_exact.stores, partialMatching_exact.stores, layout_exact.stores,
    incidence_exact.stores, partner_exact.stores, indexSpace_exact.stores, settings_exact.stores,
    analysis_tree, fun _ _ _ _ => settings_of_members⟩

/-- The analysis of the pendulum, and one with a layout; the greatest numbers, and settings of one member. -/
theorem records_round_trip_pendulum_and_chain :
    analysis.Restores ⟨#[2, 0, 0], #[2, 2, 0], #[0, 2, 1], #[0, 2, 1], -2, none⟩ ∧
      analysis.Restores ⟨#[2147483647], #[-2147483648], #[0], #[0], 0, some ⟨#[1, 3], #[1, 3], #[1, 1],
        #[some 0, none, some 18446744073709551615]⟩⟩ ∧
      matching.Restores ⟨-2, #[0, 2, 1], #[0, 2, 1], #[0, 0, 0], #[-2, -2, 0]⟩ ∧
      partialMatching.Restores ⟨#[0, 0], #[-1, 0], #[some 1, none], #[none, some 0]⟩ ∧
      layout.Restores ⟨#[], #[], #[], #[none]⟩ ∧ incidence.Restores ⟨0, 1, 2⟩ ∧
      partner.Restores (some 1) ∧ partner.Restores none ∧ indexSpace.Restores .newEquation ∧
      settings.Restores ⟨0, true, false⟩ ∧
      settings.decode "\x7b\"verify_duals\":true\x7d" = .ok ⟨2, true, true⟩ := by
  obtain ⟨hanalysis, hmatching, hpartial, hlayout, hincidence, hpartner, hspace, hsettings, -, hmembers⟩ :=
    records_round_trip
  refine ⟨hanalysis.1 _ (by decide), hanalysis.1 _ (by decide), hmatching.1 _ (by decide), hpartial.1 _ (by decide),
    hlayout.1 _ (by decide), hincidence.1 _ (by decide), hpartner.1 _ (by decide), hpartner.1 _ (by decide),
    hspace.1 _ trivial, hsettings.1 _ (by decide), ?_⟩
  exact hmembers ⟨0, true, false⟩
    [("row_reduction_sweeps", .int 0), ("verify_duals", .bool true), ("log_timing", .bool false)]
    [("verify_duals", .bool true)] _ (by decide) rfl (by simp) (by decide) (Tree.spells_compact _)

end Json

end SigmaMethod
