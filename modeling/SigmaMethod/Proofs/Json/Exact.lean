import SigmaMethod.Checked
import SigmaMethod.Json.Codec
import SigmaMethod.Proofs.Json.Reading

/-!
# Codecs that read what they write

A codec is exact for a set of values if it reads these values and no others, and each of them from every text of the
tree it is written as. Scalars, options and lists are; records follow from their fields.
-/

namespace SigmaMethod

/-- An index of 64 bits. -/
def IsIndex (k : Nat) : Prop := k < 18446744073709551616

instance (k : Nat) : Decidable (IsIndex k) := inferInstanceAs (Decidable (_ < _))

namespace Json

namespace Codec

variable {α β : Type} {c : Codec α} {P : α → Prop} {g s rest : List Char}

def Reads (c : Codec α) (a : α) : Prop := ∃ s rest, c.read s = .ok (a, rest)

structure Exact (c : Codec α) (P : α → Prop) : Prop where
  sound : c.read.Gives P
  complete {a : α} {g s rest : List Char} : P a → Gap g → Spells (c.tree a) s → Ends rest →
    c.read (g ++ (s ++ rest)) = .ok (a, rest)

theorem decode_of_read {a : α} (hread : c.read s = .ok (a, rest)) (hrest : Gap rest) :
    c.decode (String.ofList s) = .ok a := by
  unfold decode
  rw [String.toList_ofList, hread]
  simp [bind, Except.bind, finished_gap hrest, pure, Except.pure]

namespace Exact

theorem reads_iff (h : c.Exact P) {a : α} : c.Reads a ↔ P a :=
  ⟨fun ⟨s, rest, hread⟩ => h.sound s a rest hread,
    fun ha => ⟨_, [], h.complete ha .nil (c.tree a).spells_compact .nil⟩⟩

theorem reads (h : c.Exact P) : c.Exact c.Reads :=
  ⟨fun s _ rest hread => ⟨s, rest, hread⟩, fun ha => h.complete (h.reads_iff.mp ha)⟩

theorem congr {Q : α → Prop} (h : c.Exact P) (hQ : ∀ a, P a ↔ Q a) : c.Exact Q :=
  ⟨fun s a rest hread => (hQ a).mp (h.sound s a rest hread), fun ha => h.complete ((hQ _).mpr ha)⟩

theorem map {make : α → β} {split : β → α} (h : c.Exact P) (hmake : ∀ b, make (split b) = b)
    (hsplit : ∀ a, P a → split (make a) = a) : (c.map make split).Exact fun b => P (split b) where
  sound := .map fun s a rest hread => by
    have ha : P a := h.sound s a rest hread
    show P (split (make a))
    rwa [hsplit a ha]
  complete {b} _ _ _ hb hg hs hrest := by
    refine (Reader.map_ok (h.complete hb hg hs hrest)).trans ?_
    rw [hmake]

theorem decode_eq {a : α} (h : c.Exact P) (ha : P a) (hs : Spells (c.tree a) s) (hg : Gap g) :
    c.decode (String.ofList (s ++ g)) = .ok a :=
  decode_of_read (h.complete ha .nil hs (.gap hg)) hg

theorem of_decode {a : α} {text : String} (h : c.Exact P) (htext : c.decode text = .ok a) : P a := by
  unfold decode at htext
  cases hread : c.read text.toList with
  | error f => simp [hread, bind, Except.bind] at htext
  | ok p =>
    cases hend : finished p.2 with
    | error f => simp [hread, hend, bind, Except.bind] at htext
    | ok q =>
      obtain rfl : p.1 = a := by simpa [hread, hend, bind, Except.bind, pure, Except.pure] using htext
      exact h.sound _ _ _ hread

end Exact

/-! ## Scalars -/

theorem integer_exact {p : Int → Bool} (hp : ∀ x, p x = true → x.natAbs ≤ maxSignificand) :
    (integer p).Exact (p · = true) where
  sound := by
    refine .bind_any fun o => ?_
    split
    · exact .fail
    split
    · refine .bind_any fun n => ?_
      split
      · split
        · exact .pure ‹_›
        · exact .fail
      · exact .fail
    · exact .refuseValue
  complete {x g s rest} hx hg hs hrest := by
    cases hs
    obtain ⟨c, s, heq, hc⟩ := exists_intText_eq_cons x
    rw [heq, List.cons_append]
    refine (Reader.bind_ok (look_gap hg (starts_number hc).1)).trans ?_
    dsimp only
    rw [if_pos hc, Reader.bind_ok (number_intText (hp x hx) heq hrest)]
    dsimp only
    rw [if_pos hx]
    rfl

theorem nat_exact : nat.Exact IsIndex := by
  refine ((integer_exact ?_).map ?_ ?_).congr ?_
  · intro x hx
    have hx := of_decide_eq_true hx
    unfold maxSignificand
    omega
  · exact Int.toNat_natCast
  · intro x hx
    exact Int.toNat_of_nonneg (of_decide_eq_true hx).1
  · intro k
    rw [decide_eq_true_iff]
    show 0 ≤ (k : Int) ∧ (k : Int) < 18446744073709551616 ↔ k < 18446744073709551616
    omega

theorem int_exact : int.Exact InRange :=
  (integer_exact fun x hx => by
    have hx := of_decide_eq_true hx
    unfold maxSignificand
    omega).congr fun _ => ⟨fun hx => of_decide_eq_true hx, fun hx => decide_eq_true hx⟩

theorem bool_exact : Codec.bool.Exact fun _ => True where
  sound _ _ _ _ := trivial
  complete {b g s rest} _ hg hs _ := by
    cases hs
    cases b with
    | true =>
      refine (Reader.bind_ok (look_gap hg (by decide))).trans ?_
      exact Reader.bind_ok (expectRest_append "true".toList rest)
    | false =>
      refine (Reader.bind_ok (look_gap hg (by decide))).trans ?_
      exact Reader.bind_ok (expectRest_append "false".toList rest)

/-- A value that might be missing; what it is written as must not be null. -/
theorem option_exact (h : c.Exact P) (hnull : ∀ a, c.tree a ≠ .null) :
    (option c).Exact fun o => ∀ a ∈ o, P a where
  sound := by
    refine .bind_any fun first => ?_
    split
    · exact .bind_any fun _ => .pure nofun
    · refine .map fun s a rest hread b hb => ?_
      obtain rfl : a = b := by simpa using hb
      exact h.sound s a rest hread
  complete {o g s rest} ho hg hs hrest := by
    cases o with
    | none =>
      cases hs
      refine (Reader.bind_ok (look_gap hg (by decide))).trans ?_
      exact Reader.bind_ok (expectRest_append "null".toList rest)
    | some a =>
      have hs : Spells (c.tree a) s := hs
      have hread : c.read (s ++ rest) = .ok (a, rest) := h.complete (ho a rfl) .nil hs hrest
      obtain ⟨b, u, rfl, hblank, -, hn⟩ := hs.starts
      have hb : some b = some 'n' → False := fun hb => hnull a (hn (Option.some.inj hb))
      refine (Reader.bind_ok (look_gap hg hblank)).trans ?_
      simp only
      exact Reader.map_ok hread

/-! ## Lists -/

theorem items_sound (h : c.Exact P) {fuel : Nat} {first : Bool} {acc : List α} (hacc : ∀ a ∈ acc, P a) :
    (c.items fuel first acc).Gives fun as => ∀ a ∈ as, P a := by
  induction fuel generalizing first acc with
  | zero => exact .fail
  | succ fuel ih =>
    unfold items
    refine .bind_any fun more => ?_
    split
    · exact .bind h.sound fun a ha => ih (List.forall_mem_cons.mpr ⟨ha, hacc⟩)
    · exact .pure fun a ha => hacc a (List.mem_reverse.mp ha)

theorem items_complete (h : c.Exact P) {fuel : Nat} {first : Bool} {acc as : List α}
    (has : ∀ a ∈ as, P a) (hs : SpellsItems first (as.map c.tree) s) (hfuel : (s ++ rest).length < fuel) :
    c.items fuel first acc (s ++ rest) = .ok (acc.reverse ++ as, ']' :: rest) := by
  induction as generalizing fuel first acc s with
  | nil =>
    obtain ⟨fuel, rfl⟩ : ∃ k, fuel = k + 1 := ⟨fuel - 1, by omega⟩
    cases hs with
    | close hg =>
      rw [List.append_assoc, List.append_nil]
      exact (Reader.bind_ok (nextItem_close hg)).trans rfl
  | cons a as ih =>
    obtain ⟨fuel, rfl⟩ : ∃ k, fuel = k + 1 := ⟨fuel - 1, by omega⟩
    obtain ⟨ha, has⟩ := List.forall_mem_cons.mp has
    cases hs with
    | @item _ lead t u _ _ hl ht hts =>
      have hread : c.read (t ++ (u ++ rest)) = .ok (a, u ++ rest) := h.complete ha .nil ht (.items hts)
      obtain ⟨b, v, rfl, hblank, hclose, -⟩ := ht.starts
      have hfuel : (u ++ rest).length < fuel := by
        simp only [List.length_append, List.length_cons] at hfuel ⊢
        omega
      rw [List.append_assoc, List.append_assoc]
      refine (Reader.bind_ok (nextItem_lead hl hblank hclose)).trans ((Reader.bind_ok hread).trans ?_)
      rw [ih has hts hfuel, List.reverse_cons, List.append_assoc, List.singleton_append]

theorem list_exact (h : c.Exact P) : (list c).Exact fun as => ∀ a ∈ as, P a where
  sound := by
    refine .bind_any fun o => ?_
    split
    · exact .fail
    · refine .bind_any fun _ => .bind (fun s => items_sound h (List.forall_mem_nil _) s) fun as has => ?_
      exact .bind_any fun _ => .pure has
    · exact .refuseValue
  complete {as g s rest} has hg hs _ := by
    cases hs with
    | list hs =>
      refine (Reader.bind_ok (look_gap hg (by decide))).trans ((Reader.bind_ok (x := skipChar) rfl).trans ?_)
      refine (Reader.bind_ok (x := fun s => c.items (s.length + 1) true [] s)
        (items_complete h has hs (Nat.lt_succ_self _))).trans ?_
      exact (Reader.bind_ok closeList_bracket).trans rfl

theorem array_exact (h : c.Exact P) : (array c).Exact fun as => ∀ a ∈ as, P a :=
  ((list_exact h).map (fun _ => rfl) fun _ _ => rfl).congr fun as => by simp

end Codec

/-! ## Choices -/

namespace Case

variable {α : Type} {cases : List (Case α)} {k : Case α} {a : α} {g s rest : List Char}

theorem named_ok {w : String} (hk : cases.find? (fun k => k.name.toList = w.toList) = some k) :
    named cases w.toList s = .ok (k, s) := by
  unfold named
  rw [hk]
  rfl

theorem named_sound {name : List Char} : (named cases name).Gives (· ∈ cases) := by
  unfold named
  split
  · exact .pure (List.mem_of_find?_eq_some ‹_›)
  · exact .fail

theorem read_alone {w : String} (hk : cases.find? (fun k => k.name.toList = w.toList) = some k)
    (ha : k.alone = some a) (hw : Plain w) (hg : Gap g) :
    Case.read cases (g ++ (quoted w ++ rest)) = .ok (a, rest) := by
  refine (Reader.bind_ok (look_gap hg (by decide))).trans ?_
  refine (Reader.bind_ok (key_quoted hw)).trans ((Reader.bind_ok (named_ok hk)).trans ?_)
  rw [ha]
  rfl

theorem read_object {w : String} {t : Tree} (hk : cases.find? (fun k => k.name.toList = w.toList) = some k)
    (hpayload : ∀ g s rest, Gap g → Spells t s → Ends rest → k.payload (g ++ (s ++ rest)) = .ok (a, rest))
    (hw : Plain w) (hg : Gap g) (hs : Spells (.object [(w, t)]) s) :
    Case.read cases (g ++ (s ++ rest)) = .ok (a, rest) := by
  cases hs with | object hs =>
  cases hs with | member hlead hgap hgap' ht hclose =>
  cases hlead with | first hlead =>
  cases hclose with | close hlast =>
  simp only [List.cons_append, List.append_assoc, List.nil_append]
  refine (Reader.bind_ok (look_gap hg (by decide))).trans ((Reader.bind_ok (x := skipChar) rfl).trans ?_)
  refine (Reader.bind_ok (look_gap hlead (by decide))).trans ((Reader.bind_ok (key_quoted hw)).trans ?_)
  refine (Reader.bind_ok (named_ok hk)).trans ((Reader.bind_ok (colon_gap hgap)).trans ?_)
  refine (Reader.bind_ok (hpayload _ _ _ hgap' ht (.gap_append hlast (.cons rfl)))).trans ?_
  exact (Reader.bind_ok (look_gap hlast (by decide))).trans rfl

theorem read_sound {P : α → Prop} (h : ∀ k ∈ cases, (∀ a ∈ k.alone, P a) ∧ k.payload.Gives P) :
    (Case.read cases).Gives P := by
  refine .bind_any fun o => ?_
  split
  · exact .fail
  · refine .bind_any fun w => .bind named_sound fun k hk => ?_
    split
    · exact .pure ((h k hk).1 _ ‹_›)
    · exact .fail
  · refine .bind_any fun _ => .bind_any fun o => ?_
    split
    · refine .bind_any fun w => .bind named_sound fun k hk => .bind_any fun _ => ?_
      refine .bind (h k hk).2 fun a ha => .bind_any fun o => ?_
      split
      · exact .fail
      · exact .bind_any fun _ => .pure ha
      · exact .fail
    · exact .fail
    · exact .fail
  · exact .fail

theorem bare_sound {name : String} {P : α → Prop} (h : P a) :
    (∀ b ∈ (bare name a).alone, P b) ∧ (bare name a).payload.Gives P :=
  ⟨by rintro b ⟨⟩; exact h, .bind_any fun _ => .pure h⟩

theorem holding_sound {β : Type} {name : String} {codec : Codec β} {f : β → α} {P : α → Prop}
    (h : codec.read.Gives fun b => P (f b)) :
    (∀ b ∈ (holding name codec f).alone, P b) ∧ (holding name codec f).payload.Gives P :=
  ⟨nofun, .map h⟩

end Case

end Json

end SigmaMethod
