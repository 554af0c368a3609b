import SigmaMethod.Proofs.Json.Exact

/-!
# Records that read what they write

Members may come in any order, so reading them is followed on drafts: after the members named in `keys` the draft is
`kept g keys`, whatever their order was. A field that is missing then must have a value for that case.
-/

namespace SigmaMethod.Json.Fields

open Codec

variable {γ : Type} {fs : Fields γ} {g : γ} {keys : List String} {s rest : List Char}

def names : {γ : Type} → Fields γ → List String
  | _, .done => []
  | _, .field name _ _ _ rest => name :: rest.names

def allMembers : {γ : Type} → Fields γ → γ → List (String × Tree)
  | _, .done, _ => []
  | _, .field name codec _ _ rest, (a, g) => (name, codec.tree a) :: rest.allMembers g

def Fit : {γ : Type} → Fields γ → γ → Prop
  | _, .done, _ => True
  | _, .field _ codec _ _ rest, (a, g) => codec.Reads a ∧ rest.Fit g

def kept : {γ : Type} → (fs : Fields γ) → γ → List String → fs.Draft
  | _, .done, _, _ => ()
  | _, .field name _ _ _ rest, (a, g), keys => (if name ∈ keys then some a else none, rest.kept g keys)

def Fills : {γ : Type} → Fields γ → List String → γ → γ → Prop
  | _, .done, _, _, _ => True
  | _, .field name _ missing _ rest, keys, (a, g), (a', g') =>
    (if name ∈ keys then a' = a else missing = some a') ∧ rest.Fills keys g g'

def Named {γ : Type} (fs : Fields γ) : Prop := fs.names.Nodup ∧ ∀ name ∈ fs.names, Plain name

instance (fs : Fields γ) : Decidable fs.Named := inferInstanceAs (Decidable (_ ∧ _))

def Exact : {γ : Type} → Fields γ → Prop
  | _, .done => True
  | _, @field α _ _ codec missing hidden rest =>
    codec.Exact codec.Reads ∧ (∀ a ∈ missing, codec.Reads a) ∧ (∀ a : α, hidden a = true → missing = some a) ∧
      rest.Exact

theorem allMembers_names : (fs.allMembers g).map Prod.fst = fs.names := by
  induction fs with
  | done => rfl
  | field name codec missing hidden rest ih => rw [allMembers, List.map_cons, ih]; rfl

theorem name_mem {m : String × Tree} (h : m ∈ fs.allMembers g) : m.1 ∈ fs.names :=
  allMembers_names ▸ List.mem_map_of_mem h

theorem members_sublist : (fs.members g).Sublist (fs.allMembers g) := by
  induction fs with
  | done => exact .slnil
  | field name codec missing hidden rest ih =>
    obtain ⟨a, g⟩ := g
    unfold members allMembers
    split
    · exact ih.cons _
    · exact ih.cons_cons _

section
variable {α β : Type} {name : String} {codec : Codec α} {P : α → Prop} {more : Fields β}

theorem Exact.required (hcodec : codec.Exact P) (hmore : more.Exact) :
    (Fields.required name codec more).Exact :=
  ⟨hcodec.reads, nofun, nofun, hmore⟩

theorem Exact.optional {value : α} (hcodec : codec.Exact P) (hvalue : P value) (hmore : more.Exact) :
    (Fields.optional name codec value more).Exact := by
  refine ⟨hcodec.reads, ?_, nofun, hmore⟩
  rintro a ⟨⟩
  exact hcodec.reads_iff.mpr hvalue

end

/-! ## Reading members -/

theorem kept_nil : fs.kept g [] = fs.blank := by
  induction fs with
  | done => rfl
  | field name codec missing hidden rest ih =>
    rw [kept, blank, ih, if_neg List.not_mem_nil]

theorem kept_cons_of_not_mem {name : String} (h : name ∉ fs.names) :
    fs.kept g (name :: keys) = fs.kept g keys := by
  induction fs with
  | done => rfl
  | field name' codec missing hidden rest ih =>
    have hne : name' ≠ name := Ne.symm (List.ne_of_not_mem_cons h)
    simp only [kept, ih (List.not_mem_of_not_mem_cons h), List.mem_cons, hne, false_or]
    rfl

theorem readNamed_kept (hnames : fs.names.Nodup) (hfs : fs.Exact) (hg : fs.Fit g)
    {name : String} {t : Tree} {gap gap' : List Char} (hm : (name, t) ∈ fs.allMembers g) (hkeys : name ∉ keys)
    (hgap : Gap gap) (hgap' : Gap gap') (hs : Spells t s) (hrest : Ends rest) :
    fs.readNamed name.toList (fs.kept g keys) (gap ++ ':' :: (gap' ++ (s ++ rest))) =
      .ok (some (fs.kept g (name :: keys)), rest) := by
  induction fs with
  | done => exact absurd hm List.not_mem_nil
  | field name' codec missing hidden more ih =>
    obtain ⟨a, g⟩ := g
    obtain ⟨hname, hnames⟩ := List.nodup_cons.mp hnames
    obtain ⟨hcodec, -, -, hmore⟩ := hfs
    unfold readNamed kept
    rcases List.mem_cons.mp hm with heq | hm
    · obtain ⟨rfl, rfl⟩ := Prod.mk.inj heq
      rw [if_pos rfl, if_neg hkeys, kept_cons_of_not_mem hname, if_pos List.mem_cons_self]
      refine (Reader.bind_ok (colon_gap hgap)).trans ?_
      exact Reader.bind_ok (hcodec.complete hg.1 hgap' hs hrest)
    · have hne : name ≠ name' := fun h => hname (h ▸ name_mem hm)
      rw [if_neg (fun h => hne (String.toList_injective h))]
      refine (Reader.bind_ok (ih hnames hmore hg.2 hm)).trans ?_
      simp only [List.mem_cons, Ne.symm hne, false_or]
      rfl

theorem readMembers_kept (hnames : fs.Named) (hfs : fs.Exact) (hg : fs.Fit g)
    {fuel : Nat} {first : Bool} {ms : List (String × Tree)} (hms : ∀ m ∈ ms, m ∈ fs.allMembers g)
    (hnodup : (ms.map Prod.fst).Nodup) (hkeys : ∀ m ∈ ms, m.1 ∉ keys) (hs : SpellsMembers first ms s)
    (hfuel : (s ++ rest).length < fuel) :
    fs.readMembers fuel first (fs.kept g keys) (s ++ rest) =
      .ok (fs.kept g ((ms.map Prod.fst).reverse ++ keys), '\x7d' :: rest) := by
  induction ms generalizing fuel first keys s with
  | nil =>
    obtain ⟨fuel, rfl⟩ : ∃ k, fuel = k + 1 := ⟨fuel - 1, by omega⟩
    cases hs with
    | close hgap =>
      rw [List.append_assoc]
      exact (Reader.bind_ok (nextMember_close hgap)).trans rfl
  | cons m ms ih =>
    obtain ⟨fuel, rfl⟩ : ∃ k, fuel = k + 1 := ⟨fuel - 1, by omega⟩
    rw [List.forall_mem_cons] at hms hkeys
    rw [List.map_cons, List.nodup_cons] at hnodup
    obtain ⟨hm, hms⟩ := hms
    obtain ⟨hnew, hnodup⟩ := hnodup
    obtain ⟨hkey, hkeys⟩ := hkeys
    cases hs with
    | @member _ lead gap gap' t u k tree _ hl hgap hgap' ht hs =>
      have hkeys : ∀ m ∈ ms, m.1 ∉ k :: keys := by
        intro m hm
        exact List.not_mem_cons_of_ne_of_not_mem (fun h => hnew (List.mem_map.mpr ⟨m, hm, h⟩)) (hkeys m hm)
      have hfuel : (u ++ rest).length < fuel := by
        simp only [List.length_append, List.length_cons] at hfuel ⊢
        omega
      simp only [List.append_assoc, List.cons_append]
      refine (Reader.bind_ok (nextMember_lead hl)).trans ?_
      refine (Reader.bind_ok (key_quoted (hnames.2 k (name_mem hm)))).trans ?_
      refine (Reader.bind_ok (readNamed_kept hnames.1 hfs hg hm hkey hgap hgap' ht (.members hs))).trans ?_
      rw [List.map_cons, List.reverse_cons, List.append_assoc, List.singleton_append]
      exact ih hms hnodup hkeys hs hfuel

theorem finish_kept {g' : γ} (h : fs.Fills keys g g') :
    fs.finish (fs.kept g keys) s = .ok (g', s) := by
  induction fs with
  | done => rfl
  | field name codec missing hidden rest ih =>
    obtain ⟨a, g⟩ := g
    obtain ⟨a', g'⟩ := g'
    obtain ⟨ha, hg⟩ := h
    unfold finish kept
    by_cases hname : name ∈ keys
    · obtain rfl : a' = a := by simpa [hname] using ha
      rw [if_pos hname]
      exact (Reader.bind_ok (ih hg)).trans rfl
    · obtain rfl : missing = some a' := by simpa [hname] using ha
      rw [if_neg hname]
      exact (Reader.bind_ok (ih hg)).trans rfl

/-- An object is read member by member, in whatever order they stand; missing fields are filled in. -/
theorem read_members (hnames : fs.Named) (hfs : fs.Exact) (hg : fs.Fit g) {g' : γ} {gap : List Char}
    {ms : List (String × Tree)} (hms : ∀ m ∈ ms, m ∈ fs.allMembers g) (hnodup : (ms.map Prod.fst).Nodup)
    (hfills : fs.Fills (ms.map Prod.fst).reverse g g') (hgap : Gap gap) (hs : Spells (.object ms) s) :
    fs.codec.read (gap ++ (s ++ rest)) = .ok (g', rest) := by
  cases hs with
  | object hs =>
    have hread := readMembers_kept hnames hfs hg hms hnodup (fun _ _ => List.not_mem_nil) hs
      (Nat.lt_succ_self (_ ++ rest).length)
    rw [List.append_nil, kept_nil] at hread
    refine (Reader.bind_ok (look_gap hgap (by decide))).trans ((Reader.bind_ok (x := skipChar) rfl).trans ?_)
    refine (Reader.bind_ok (x := fun s => fs.readMembers (s.length + 1) true fs.blank s) hread).trans ?_
    exact (Reader.bind_ok (finish_kept hfills)).trans rfl

theorem decode_members {α : Type} {make : γ → α} {split : α → γ} (hnames : fs.Named)
    (hfs : fs.Exact) (hmake : ∀ a, make (split a) = a) {a b : α} (ha : fs.Fit (split a))
    {ms : List (String × Tree)} (hms : ∀ m ∈ ms, m ∈ fs.allMembers (split a)) (hnodup : (ms.map Prod.fst).Nodup)
    (hfills : fs.Fills (ms.map Prod.fst).reverse (split a) (split b)) (hs : Spells (.object ms) s) :
    (fs.codec.map make split).decode (String.ofList s) = .ok b := by
  have hread : fs.codec.read (s ++ []) = .ok (split b, []) :=
    read_members hnames hfs ha hms hnodup hfills .nil hs
  rw [List.append_nil] at hread
  rw [← hmake b]
  exact decode_of_read (Reader.map_ok hread) .nil

theorem fills_self (hfs : fs.Exact) (h : ∀ m ∈ fs.members g, m.1 ∈ keys) :
    fs.Fills keys g g := by
  induction fs with
  | done => trivial
  | field name codec missing hidden rest ih =>
    obtain ⟨a, g⟩ := g
    obtain ⟨-, -, hhidden, hrest⟩ := hfs
    unfold members at h
    by_cases ha : hidden a = true
    · rw [if_pos ha] at h
      refine ⟨?_, ih hrest h⟩
      split
      · rfl
      · exact hhidden a ha
    · rw [if_neg ha] at h
      obtain ⟨hname, h⟩ := List.forall_mem_cons.mp h
      exact ⟨by rw [if_pos hname], ih hrest h⟩

/-! ## What is read -/

def DraftFit : {γ : Type} → (fs : Fields γ) → fs.Draft → Prop
  | _, .done, _ => True
  | _, @field α _ _ codec _ _ rest, draft =>
    let draft : Option α × rest.Draft := draft
    (∀ a ∈ draft.1, codec.Reads a) ∧ rest.DraftFit draft.2

theorem blank_fit : fs.DraftFit fs.blank := by
  induction fs with
  | done => trivial
  | field name codec missing hidden rest ih => exact ⟨nofun, ih⟩

theorem readNamed_sound (hfs : fs.Exact) {key : List Char} {draft : fs.Draft}
    (h : fs.DraftFit draft) : (fs.readNamed key draft).Gives fun o => ∀ draft ∈ o, fs.DraftFit draft := by
  induction fs with
  | done => exact .pure nofun
  | field name codec missing hidden more ih =>
    obtain ⟨hcodec, -, -, hmore⟩ := hfs
    unfold readNamed
    split
    · split
      · exact .fail
      · refine .bind_any fun _ => .bind hcodec.sound fun a ha => .pure ?_
        rintro _ ⟨⟩
        exact ⟨by simpa using ha, h.2⟩
    · refine .bind (ih hmore h.2) fun o ho => ?_
      split
      · refine .pure ?_
        rintro _ ⟨⟩
        exact ⟨h.1, ho _ rfl⟩
      · exact .pure nofun

theorem readMembers_sound (hfs : fs.Exact) {fuel : Nat} {first : Bool} {draft : fs.Draft}
    (h : fs.DraftFit draft) : (fs.readMembers fuel first draft).Gives fs.DraftFit := by
  induction fuel generalizing first draft with
  | zero => exact .fail
  | succ fuel ih =>
    unfold readMembers
    refine .bind_any fun more => ?_
    split
    · refine .bind_any fun key => .bind (readNamed_sound hfs h) fun o ho => ?_
      split
      · exact ih (ho _ rfl)
      · exact .bind_any fun _ => .bind_any fun _ => ih h
    · exact .pure h

theorem finish_sound (hfs : fs.Exact) {draft : fs.Draft} (h : fs.DraftFit draft) :
    (fs.finish draft).Gives fs.Fit := by
  induction fs with
  | done => exact .pure trivial
  | field name codec missing hidden more ih =>
    obtain ⟨-, hmissing, -, hmore⟩ := hfs
    obtain ⟨o, draft⟩ := draft
    unfold finish
    split
    · exact .fail
    · rename_i a ha
      refine .bind (ih hmore h.2) fun g hg => .pure ⟨?_, hg⟩
      cases o with
      | none => exact hmissing a ha
      | some b => exact h.1 a ha

theorem readItems_sound (hfs : fs.Exact) {first : Bool} : (fs.readItems first).Gives fs.Fit := by
  induction fs generalizing first with
  | done => exact .pure trivial
  | field name codec missing hidden more ih =>
    obtain ⟨hcodec, hmissing, -, hmore⟩ := hfs
    unfold readItems
    refine .bind_any fun next => ?_
    split
    · exact .bind hcodec.sound fun a ha => .bind (ih hmore) fun g hg => .pure ⟨ha, hg⟩
    · split
      · exact .bind (ih hmore) fun g hg => .pure ⟨hmissing _ rfl, hg⟩
      · exact .fail

theorem codec_exact (hnames : fs.Named) (hfs : fs.Exact) : fs.codec.Exact fs.Fit where
  sound := by
    refine .bind_any fun o => ?_
    split
    · exact .fail
    · exact .bind_any fun _ => .bind (readItems_sound hfs) fun g hg => .bind_any fun _ => .pure hg
    · refine .bind_any fun _ => .bind (fun s => readMembers_sound hfs blank_fit s) fun draft hdraft => ?_
      exact .bind (finish_sound hfs hdraft) fun g hg => .bind_any fun _ => .pure hg
    · exact .refuseValue
  complete {g gap s rest} hg hgap hs _ := by
    have hsub : (fs.members g).Sublist (fs.allMembers g) := members_sublist
    have hnodup : ((fs.members g).map Prod.fst).Nodup :=
      (allMembers_names ▸ hnames.1).sublist (hsub.map Prod.fst)
    refine read_members hnames hfs hg (fun m hm => hsub.subset hm) hnodup (fills_self hfs fun m hm => ?_) hgap hs
    exact List.mem_reverse.mpr (List.mem_map_of_mem hm)

end SigmaMethod.Json.Fields
