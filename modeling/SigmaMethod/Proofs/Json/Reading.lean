import SigmaMethod.Proofs.Json.Spelling

/-!
# What the readers take

Each reader, on a text that starts with what it is to read: punctuation, words and numbers, with whatever comes behind
them.
-/

namespace SigmaMethod

/-! ## Digits -/

namespace Text

theorem digitVal_digitChar {d : Nat} (h : d < 10) : digitVal (digitChar d) = d := by
  have : ∀ d < 10, digitVal (digitChar d) = d := by decide
  exact this d h

theorem isDigit_digitChar {d : Nat} (h : d < 10) : (digitChar d).isDigit = true := by
  have : ∀ d < 10, (digitChar d).isDigit = true := by decide
  exact this d h

theorem isDigit_of_mem_digits {n : Nat} {c : Char} (h : c ∈ digits n) : c.isDigit = true := by
  induction n using digits.induct with
  | case1 n hn =>
    rw [digits, if_pos hn, List.mem_singleton] at h
    exact h ▸ isDigit_digitChar hn
  | case2 n hn ih =>
    rw [digits, if_neg hn, List.mem_append, List.mem_singleton] at h
    exact h.elim ih fun h => h ▸ isDigit_digitChar (Nat.mod_lt n (by decide))

theorem ofDigits_digits (n : Nat) : ofDigits (digits n) = n := by
  induction n using digits.induct with
  | case1 n hn => simp [digits, hn, ofDigits, digitVal_digitChar]
  | case2 n hn ih =>
    rw [digits, if_neg hn, ofDigits, List.foldl_append, List.foldl_cons, List.foldl_nil, ← ofDigits, ih,
      digitVal_digitChar (Nat.mod_lt n (by decide))]
    omega

theorem exists_digits_eq_cons {n : Nat} (h : 0 < n) : ∃ c ds, digits n = c :: ds ∧ c ≠ '0' := by
  induction n using digits.induct with
  | case1 n hn =>
    have : ∀ d < 10, 0 < d → digitChar d ≠ '0' := by decide
    exact ⟨digitChar n, [], by rw [digits, if_pos hn], this n hn h⟩
  | case2 n hn ih =>
    obtain ⟨c, ds, heq, hc⟩ := ih (by omega)
    exact ⟨c, ds ++ [digitChar (n % 10)], by rw [digits, if_neg hn, heq, List.cons_append], hc⟩

theorem digits_zero : digits 0 = ['0'] := by
  rw [digits, if_pos (by decide)]
  rfl

end Text

namespace Json

/-! ## Sequences of readers -/

namespace Reader

variable {α β : Type} {x : Reader α} {f : α → Reader β} {a : α} {P : α → Prop} {Q : β → Prop}

theorem bind_ok {s t : List Char} (h : x s = .ok (a, t)) : (x >>= f) s = f a t := by
  simp only [bind, StateT.bind, h, Except.bind]

theorem map_ok {f : α → β} {s t : List Char} (h : x s = .ok (a, t)) : (f <$> x) s = .ok (f a, t) := by
  rw [map_eq_pure_bind]
  exact bind_ok h

def Gives (x : Reader α) (P : α → Prop) : Prop := ∀ s a rest, x s = .ok (a, rest) → P a

namespace Gives

theorem bind (hx : x.Gives P) (hf : ∀ a, P a → (f a).Gives Q) : (x >>= f).Gives Q := by
  intro s b rest h
  cases hs : x s with
  | error e => simp [Bind.bind, StateT.bind, hs, Except.bind] at h
  | ok p =>
    rw [bind_ok hs] at h
    exact hf p.1 (hx s p.1 p.2 hs) _ _ _ h

theorem bind_any (hf : ∀ a, (f a).Gives Q) : (x >>= f).Gives Q :=
  bind (P := fun _ => True) (fun _ _ _ _ => trivial) fun a _ => hf a

theorem pure (ha : P a) : (Pure.pure a : Reader α).Gives P := by
  rintro s b rest ⟨⟩
  exact ha

theorem fail {e : Fault} : (Json.fail e : Reader α).Gives P := nofun

theorem map {f : α → β} (hx : x.Gives fun a => Q (f a)) : (f <$> x).Gives Q := by
  rw [map_eq_pure_bind]
  exact bind hx fun _ ha => pure ha

theorem refuseValue : (Json.refuseValue : Reader α).Gives P := by
  refine bind_any fun o => ?_
  split
  case h_2 => exact bind_any fun _ => bind_any fun _ => fail
  case h_8 =>
    split
    · exact bind_any fun _ => fail
    · exact fail
  all_goals first | exact fail | exact bind_any fun _ => fail

end Gives

end Reader

/-! ## Blanks -/

variable {g s rest : List Char} {c : Char}

theorem dropWhile_gap (hg : Gap g) : (g ++ s).dropWhile isBlank = s.dropWhile isBlank :=
  List.dropWhile_append_of_pos hg

theorem look_gap (hg : Gap g) (hc : isBlank c = false) : look (g ++ c :: s) = .ok (some c, c :: s) := by
  unfold look
  rw [dropWhile_gap hg, List.dropWhile_cons, hc]
  rfl

theorem look_gap_end (hg : Gap g) : look g = .ok (none, []) := by
  unfold look
  rw [← List.append_nil g, dropWhile_gap hg]
  rfl

theorem expectRest_append (w s : List Char) : expectRest w (w ++ s) = .ok ((), s) := by
  induction w with
  | nil => rfl
  | cons c w ih => rw [List.cons_append, expectRest, if_pos rfl, ih]

/-! ## Punctuation -/

theorem nextItem_close {first : Bool} (hg : Gap g) : nextItem first (g ++ ']' :: s) = .ok (false, ']' :: s) :=
  Reader.bind_ok (look_gap hg rfl)

theorem nextItem_lead {first : Bool} {lead : List Char} (hl : Lead first lead) (hc : isBlank c = false)
    (hb : c ≠ ']') : nextItem first (lead ++ c :: s) = .ok (true, c :: s) := by
  unfold nextItem
  cases hl with
  | first hg =>
    refine (Reader.bind_ok (look_gap hg hc)).trans ?_
    -- `hb` rules out the case of the bracket.
    simp only
    rfl
  | next hg hg' =>
    rw [List.append_assoc, List.cons_append]
    refine (Reader.bind_ok (look_gap hg rfl)).trans ((Reader.bind_ok (x := skipChar) rfl).trans ?_)
    refine (Reader.bind_ok (look_gap hg' hc)).trans ?_
    simp only
    rfl

theorem closeList_bracket : closeList (']' :: s) = .ok ((), s) := rfl

theorem nextMember_close {first : Bool} (hg : Gap g) :
    nextMember first (g ++ '\x7d' :: s) = .ok (false, '\x7d' :: s) :=
  Reader.bind_ok (look_gap hg rfl)

theorem nextMember_lead {first : Bool} {lead : List Char} (hl : Lead first lead) :
    nextMember first (lead ++ '"' :: s) = .ok (true, '"' :: s) := by
  cases hl with
  | first hg => exact Reader.bind_ok (look_gap hg rfl)
  | next hg hg' =>
    rw [List.append_assoc, List.cons_append]
    refine (Reader.bind_ok (look_gap hg rfl)).trans ?_
    exact (Reader.bind_ok (x := skipChar) rfl).trans (Reader.bind_ok (look_gap hg' rfl))

theorem colon_gap (hg : Gap g) : colon (g ++ ':' :: s) = .ok ((), s) :=
  Reader.bind_ok (look_gap hg rfl)

theorem finished_gap (hg : Gap g) : finished g = .ok ((), []) :=
  Reader.bind_ok (look_gap_end hg)

/-! ## Ends of numbers -/

def continuesNumber (c : Char) : Bool := c.isDigit || c == '.' || c == 'e' || c == 'E'

def Ends (rest : List Char) : Prop := ∀ c ∈ rest.head?, continuesNumber c = false

namespace Ends

theorem nil : Ends [] := nofun

theorem cons (hc : continuesNumber c = false) : Ends (c :: s) := by
  rintro _ ⟨⟩
  exact hc

theorem gap_append (hg : Gap g) (hs : Ends s) : Ends (g ++ s) := by
  cases g with
  | nil => exact hs
  | cons c g =>
    have hc : isBlank c = true := hg c List.mem_cons_self
    simp only [isBlank, Bool.or_eq_true, beq_iff_eq] at hc
    rcases hc with ((rfl | rfl) | rfl) | rfl <;> exact cons rfl

theorem gap (hg : Gap g) : Ends g := by
  simpa using gap_append hg nil

theorem lead {lead : List Char} (hl : Lead false lead) : Ends (lead ++ s) := by
  cases hl with
  | next hg hg' =>
    rw [List.append_assoc]
    exact gap_append hg (cons rfl)

theorem items {ts : List Tree} (h : SpellsItems false ts s) : Ends (s ++ rest) := by
  cases h with
  | close hg =>
    rw [List.append_assoc]
    exact gap_append hg (cons rfl)
  | item hl =>
    rw [List.append_assoc]
    exact lead hl

theorem members {ms : List (String × Tree)} (h : SpellsMembers false ms s) : Ends (s ++ rest) := by
  cases h with
  | close hg =>
    rw [List.append_assoc]
    exact gap_append hg (cons rfl)
  | member hl =>
    rw [List.append_assoc]
    exact lead hl

theorem startsWithDigit (h : Ends rest) : startsWithDigit rest = false := by
  unfold Json.startsWithDigit
  cases rest with
  | nil => rfl
  | cons c rest =>
    have hc := h c rfl
    simp only [continuesNumber, Bool.or_eq_false_iff] at hc
    exact hc.1.1.1

end Ends

/-! ## Numbers -/

theorem le_foldl_digitVal {ds : List Char} {sig : Nat} :
    sig ≤ ds.foldl (fun n c => 10 * n + Text.digitVal c) sig := by
  induction ds generalizing sig with
  | nil => exact Nat.le_refl sig
  | cons c ds ih =>
    have hgrows : sig ≤ 10 * sig + Text.digitVal c := by omega
    exact Nat.le_trans hgrows ih

theorem significand_append {ds : List Char} {sig taken : Nat} (hds : ∀ c ∈ ds, c.isDigit = true)
    (hmax : ds.foldl (fun n c => 10 * n + Text.digitVal c) sig ≤ maxSignificand) (hrest : Ends rest) :
    significand sig taken (ds ++ rest) =
      (ds.foldl (fun n c => 10 * n + Text.digitVal c) sig, taken + ds.length, rest) := by
  induction ds generalizing sig taken with
  | nil =>
    cases rest with
    | nil => rfl
    | cons c rest =>
      have hc : c.isDigit = false := hrest.startsWithDigit
      rw [List.nil_append, significand, if_neg (by simp [hc])]
      rfl
  | cons c ds ih =>
    have hc : 10 * sig + Text.digitVal c ≤ maxSignificand := Nat.le_trans le_foldl_digitVal hmax
    rw [List.cons_append, significand, if_pos ⟨hds c List.mem_cons_self, hc⟩,
      ih (fun c hc => hds c (List.mem_cons_of_mem _ hc)) hmax, List.foldl_cons, List.length_cons]
    congr 2
    omega

theorem numberTail_ends {positive : Bool} {sig : Nat} (hrest : Ends rest) :
    numberTail positive sig rest =
      if positive then .ok (.whole sig, rest)
      else if sig = 0 then .ok (.other, rest)
      else .ok (.whole (-sig), rest) := by
  unfold numberTail
  split
  · exact absurd (hrest _ rfl) (by decide)
  · exact absurd (hrest _ rfl) (by decide)
  · exact absurd (hrest _ rfl) (by decide)
  · rfl

theorem unsigned_digits {positive : Bool} {n : Nat} (hn : n ≤ maxSignificand) (hrest : Ends rest) :
    unsigned positive (Text.digits n ++ rest) = numberTail positive n rest := by
  rcases Nat.eq_zero_or_pos n with rfl | hpos
  · rw [Text.digits_zero, List.cons_append, List.nil_append, unsigned, if_neg (by simp [hrest.startsWithDigit])]
  · obtain ⟨c, ds, heq, hc⟩ := Text.exists_digits_eq_cons hpos
    have hdigits : ∀ d ∈ c :: ds, d.isDigit = true := fun d hd => Text.isDigit_of_mem_digits (heq ▸ hd)
    have hvalue : ds.foldl (fun n c => 10 * n + Text.digitVal c) (Text.digitVal c) = n := by
      have := Text.ofDigits_digits n
      rwa [heq, Text.ofDigits, List.foldl_cons, Nat.mul_zero, Nat.zero_add] at this
    have hfollowed : significand (Text.digitVal c) 1 (ds ++ rest) = (_, 1 + ds.length, rest) :=
      significand_append (fun d hd => hdigits d (List.mem_cons_of_mem _ hd)) (Nat.le_trans (Nat.le_of_eq hvalue) hn)
        hrest
    rw [heq, List.cons_append, unsigned]
    · rw [if_pos (hdigits c List.mem_cons_self), hfollowed, hvalue]
      dsimp only
      rw [if_neg (by simp [hrest.startsWithDigit])]
    · exact hc

theorem exists_intText_eq_cons (x : Int) :
    ∃ c s, Text.intText x = c :: s ∧ (c = '-' ∨ c.isDigit = true) := by
  cases x with
  | negSucc n => exact ⟨'-', _, rfl, .inl rfl⟩
  | ofNat n =>
    have hne : Text.digits n ≠ [] := by
      unfold Text.digits
      split <;> simp
    obtain ⟨c, ds, heq⟩ := List.exists_cons_of_ne_nil hne
    exact ⟨c, ds, heq, .inr (Text.isDigit_of_mem_digits (heq ▸ List.mem_cons_self))⟩

theorem starts_number (h : c = '-' ∨ c.isDigit = true) : isBlank c = false ∧ c ≠ ']' ∧ c ≠ 'n' := by
  refine ⟨Bool.eq_false_iff.mpr fun hb => ?_, ?_, ?_⟩
  · simp only [isBlank, Bool.or_eq_true, beq_iff_eq] at hb
    rcases hb with ((rfl | rfl) | rfl) | rfl <;> exact absurd h (by decide)
  all_goals
    rintro rfl
    exact absurd h (by decide)

/-- A value starts with a character that is no blank, closes no list and tells null from all others. -/
theorem Spells.starts {t : Tree} (h : Spells t s) :
    ∃ c u, s = c :: u ∧ isBlank c = false ∧ c ≠ ']' ∧ (c = 'n' → t = .null) := by
  cases h with
  | null => exact ⟨'n', _, rfl, by decide, by decide, fun _ => rfl⟩
  | bool b => cases b <;> exact ⟨_, _, rfl, by decide, by decide, fun h => absurd h (by decide)⟩
  | int x =>
    obtain ⟨c, u, heq, hc⟩ := exists_intText_eq_cons x
    obtain ⟨hblank, hclose, hnull⟩ := starts_number hc
    exact ⟨c, u, heq, hblank, hclose, fun h => absurd h hnull⟩
  | word w => exact ⟨'"', _, rfl, by decide, by decide, fun h => absurd h (by decide)⟩
  | list h => exact ⟨'[', _, rfl, by decide, by decide, fun h => absurd h (by decide)⟩
  | object h => exact ⟨'\x7b', _, rfl, by decide, by decide, fun h => absurd h (by decide)⟩

theorem number_intText {x : Int} {s : List Char} (hx : x.natAbs ≤ maxSignificand) (heq : Text.intText x = c :: s)
    (hrest : Ends rest) : number c (c :: (s ++ rest)) = .ok (.whole x, rest) := by
  unfold number
  cases x with
  | negSucc n =>
    obtain ⟨rfl, rfl⟩ : '-' = c ∧ Text.digits (n + 1) = s := by simpa [Text.intText] using heq
    have hx : n + 1 ≤ maxSignificand := hx
    rw [if_pos rfl, List.tail_cons, unsigned_digits hx hrest, numberTail_ends hrest]
    rfl
  | ofNat n =>
    have heq : Text.digits n = c :: s := heq
    have hc : c ≠ '-' := by
      rintro rfl
      exact absurd (Text.isDigit_of_mem_digits (heq ▸ List.mem_cons_self)) (by decide)
    have hx : n ≤ maxSignificand := hx
    rw [if_neg hc, ← List.cons_append, ← heq, unsigned_digits hx hrest, numberTail_ends hrest]
    rfl

/-! ## Words -/

def isPlain (c : Char) : Bool := c != '"' && c != '\\' && decide (0x20 ≤ c.toNat)

def Plain (w : String) : Prop := w.toList.all isPlain = true

instance (w : String) : Decidable (Plain w) := inferInstanceAs (Decidable (_ = true))

theorem stringRest_append {w acc : List Char} {fuel : Nat} (hw : w.all isPlain = true) (hfuel : w.length < fuel) :
    stringRest fuel acc (w ++ '"' :: rest) = .ok (acc.reverse ++ w, rest) := by
  induction w generalizing acc fuel with
  | nil =>
    obtain ⟨fuel, rfl⟩ := Nat.exists_eq_add_of_lt hfuel
    simp [stringRest]
  | cons c w ih =>
    obtain ⟨fuel, rfl⟩ : ∃ k, fuel = k + 1 := ⟨fuel - 1, by omega⟩
    rw [List.all_cons, Bool.and_eq_true] at hw
    obtain ⟨hc, hw⟩ := hw
    obtain ⟨⟨hquote, hslash⟩, hprint⟩ : (c ≠ '"' ∧ c ≠ '\\') ∧ 0x20 ≤ c.toNat := by simpa [isPlain] using hc
    rw [List.cons_append, stringRest, if_neg (by omega), ih hw (by simpa using hfuel)]
    · simp
    · exact fun h => hquote h
    · exact fun h => hslash h

theorem key_quoted {w : String} (hw : Plain w) : key (quoted w ++ rest) = .ok (w.toList, rest) := by
  have hread : string (w.toList ++ '"' :: rest) = .ok (w.toList, rest) :=
    stringRest_append hw (by rw [List.length_append, List.length_cons]; omega)
  unfold key quoted
  rw [Reader.bind_ok (x := skipChar) rfl]
  simpa using hread

end Json

end SigmaMethod
