import SigmaMethod.Matching.Frontier

/-!
# The frontier is a priority map

A well-formed frontier is a finite map from columns to keys, read with `find?`: each column sits in the slot its place
names, and no key goes before the key of its parent slot. `pushOrDecrease` writes a key that is new or smaller, `pop`
takes out a column whose key no other goes before, `clear` takes out all.
-/

namespace SigmaMethod

namespace Key

theorem not_before_self (a : Key) : ¬ a.Before a := by
  unfold Before
  omega

theorem Before.asymm {a b : Key} (h : a.Before b) : ¬ b.Before a := by
  unfold Before at *
  omega

theorem not_before_trans {a b c : Key} (hab : ¬ a.Before b) (hbc : ¬ b.Before c) : ¬ a.Before c := by
  unfold Before at *
  omega

theorem eq_of_not_before {a b : Key} (hab : ¬ a.Before b) (hba : ¬ b.Before a) : a = b := by
  obtain ⟨x, s⟩ := a
  obtain ⟨y, t⟩ := b
  simp only [Before, mk.injEq] at *
  omega

theorem dist_le_of_not_before {a b : Key} (h : ¬ a.Before b) : b.dist ≤ a.dist := by
  unfold Before at h
  omega

end Key

namespace Frontier

variable {n : Nat} {f : Frontier n}

def Sits (f : Frontier n) (j : Fin n) (key : Key) : Prop := ∃ p : Nat, f.slots[p]? = some (key, j)

def Placed (f : Frontier n) : Prop :=
  ∀ (j : Fin n) (p : Nat), f.place.get j = some p ↔ ∃ key, f.slots[p]? = some (key, j)

def InOrder (f : Frontier n) (c : Nat) : Prop :=
  ∀ x y, f.slots[c]? = some x → f.slots[(c - 1) / 4]? = some y → ¬ x.1.Before y.1

def Ordered (f : Frontier n) : Prop := ∀ c, 0 < c → f.InOrder c

structure WF (f : Frontier n) : Prop where
  placed : f.Placed
  ordered : f.Ordered

def find? (f : Frontier n) (j : Fin n) : Option Key := (f.place.get j).bind fun p => f.slots[p]?.map (·.1)

theorem Placed.find?_eq_some_iff (h : f.Placed) {j : Fin n} {key : Key} : f.find? j = some key ↔ f.Sits j key := by
  unfold find? Sits
  constructor
  · intro hf
    obtain ⟨p, hp, hf⟩ := Option.bind_eq_some_iff.mp hf
    obtain ⟨key', hk⟩ := (h j p).mp hp
    rw [hk] at hf
    cases hf
    exact ⟨p, hk⟩
  · rintro ⟨p, hp⟩
    rw [(h j p).mpr ⟨key, hp⟩]
    simp [hp]

theorem Placed.find?_eq_none_iff (h : f.Placed) {j : Fin n} : f.find? j = none ↔ f.place.get j = none := by
  unfold find?
  cases hp : f.place.get j with
  | none => simp
  | some p =>
    obtain ⟨key, hk⟩ := (h j p).mp hp
    simp [hk]

theorem Placed.find?_congr {g : Frontier n} (hf : f.Placed) (hg : g.Placed) {j : Fin n}
    (h : ∀ key, g.Sits j key ↔ f.Sits j key) : g.find? j = f.find? j := by
  refine Option.ext fun key => ?_
  rw [hf.find?_eq_some_iff, hg.find?_eq_some_iff, h]

/-! ## Exchanging two slots -/

section exchange

variable {a b : Nat}

@[simp] theorem exchange_size : (f.exchange a b).slots.size = f.slots.size := by
  unfold exchange
  split
  · split
    · simp
    · rfl
  · rfl

theorem exchange_slots (ha : a < f.slots.size) (hb : b < f.slots.size) (p : Nat) :
    (f.exchange a b).slots[p]? =
      if p = a then f.slots[b]? else if p = b then f.slots[a]? else f.slots[p]? := by
  simp only [exchange, ha, hb, dite_true, Array.getElem?_swap, Array.getElem?_eq_getElem]
  by_cases hab : b = a
  · subst hab
    by_cases hp : p = b
    · simp [hp]
    · simp [hp, Ne.symm hp]
  · by_cases hpa : p = a
    · simp [hpa, hab]
    · by_cases hpb : p = b
      · simp [hpb, hab]
      · simp [hpa, hpb, Ne.symm hpa, Ne.symm hpb]

theorem exchange_place {x y : Key × Fin n} (hx : f.slots[a]? = some x) (hy : f.slots[b]? = some y) (j : Fin n) :
    (f.exchange a b).place.get j = if j = x.2 then some b else if j = y.2 then some a else f.place.get j := by
  obtain ⟨ha, rfl⟩ := Array.getElem?_eq_some_iff.mp hx
  obtain ⟨hb, rfl⟩ := Array.getElem?_eq_some_iff.mp hy
  simp only [exchange, ha, hb, dite_true, Vector.get_put]

theorem Placed.exchange (h : f.Placed) (ha : a < f.slots.size) (hb : b < f.slots.size) : (f.exchange a b).Placed := by
  obtain ⟨x, hx⟩ : ∃ x, f.slots[a]? = some x := ⟨_, Array.getElem?_eq_getElem ha⟩
  obtain ⟨y, hy⟩ : ∃ y, f.slots[b]? = some y := ⟨_, Array.getElem?_eq_getElem hb⟩
  have hpa := (h x.2 a).mpr ⟨x.1, hx⟩
  have hpb := (h y.2 b).mpr ⟨y.1, hy⟩
  intro j p
  have hj := h j p
  rw [exchange_place hx hy, exchange_slots ha hb]
  clear h ha hb
  generalize f.place.get = t at *
  generalize (getElem? f.slots : Nat → Option (Key × Fin n)) = s at *
  grind

theorem sits_exchange (ha : a < f.slots.size) (hb : b < f.slots.size) {j : Fin n} {key : Key} :
    (f.exchange a b).Sits j key ↔ f.Sits j key := by
  unfold Sits
  constructor
  · rintro ⟨p, hp⟩
    rw [exchange_slots ha hb] at hp
    split at hp
    · exact ⟨b, hp⟩
    · split at hp
      · exact ⟨a, hp⟩
      · exact ⟨p, hp⟩
  · rintro ⟨p, hp⟩
    by_cases hpa : p = a
    · refine ⟨b, ?_⟩
      rw [exchange_slots ha hb]
      subst hpa
      by_cases hpb : b = p
      · subst hpb; simpa using hp
      · simpa [hpb] using hp
    · by_cases hpb : p = b
      · refine ⟨a, ?_⟩
        rw [exchange_slots ha hb]
        simpa [← hpb] using hp
      · refine ⟨p, ?_⟩
        rw [exchange_slots ha hb]
        simpa [hpa, hpb] using hp

theorem Placed.find?_exchange (h : f.Placed) (ha : a < f.slots.size) (hb : b < f.slots.size) (j : Fin n) :
    (f.exchange a b).find? j = f.find? j :=
  h.find?_congr (h.exchange ha hb) fun _ => sits_exchange ha hb

end exchange

theorem less_iff {a b : Nat} {x y : Key × Fin n} (ha : f.slots[a]? = some x) (hb : f.slots[b]? = some y) :
    f.less a b = true ↔ x.1.Before y.1 := by
  simp [less, ha, hb]

/-! ## Moving up -/

/-- All slots are in order except `pos`, whose children are in order with its parent. -/
structure UpTo (f : Frontier n) (pos : Nat) : Prop where
  inOrder : ∀ c, 0 < c → c ≠ pos → f.InOrder c
  around : 0 < pos → ∀ c, 0 < c → (c - 1) / 4 = pos →
    ∀ x y, f.slots[c]? = some x → f.slots[(pos - 1) / 4]? = some y → ¬ x.1.Before y.1

/-- One step up: the slot that may be out of order is now the parent. -/
theorem UpTo.step {pos : Nat} {z w : Key × Fin n} (h : f.UpTo pos) (hpos : 0 < pos) (hz : f.slots[pos]? = some z)
    (hw : f.slots[(pos - 1) / 4]? = some w) (hzw : z.1.Before w.1) :
    (f.exchange pos ((pos - 1) / 4)).UpTo ((pos - 1) / 4) := by
  have hlt : pos < f.slots.size := (Array.getElem?_eq_some_iff.mp hz).1
  have hlt' : (pos - 1) / 4 < f.slots.size := (Array.getElem?_eq_some_iff.mp hw).1
  have hslots := exchange_slots hlt hlt'
  -- what sat in the parent slot comes after what sat in `pos`
  have hwz : ¬ w.1.Before z.1 := hzw.asymm
  constructor
  · intro c hc hcp x y hx hy
    rw [hslots] at hx hy
    by_cases hcpos : c = pos
    · subst hcpos
      have hne : (c - 1) / 4 ≠ c := by omega
      simp only [ite_true, hne, ite_false, hw, hz] at hx hy
      cases hx; cases hy
      exact hwz
    · simp only [hcpos, hcp, ite_false] at hx
      by_cases hpar : (c - 1) / 4 = pos
      · simp only [hpar, ite_true] at hy
        exact h.around hpos c hc hpar x y hx hy
      · simp only [hpar, ite_false] at hy
        by_cases hsib : (c - 1) / 4 = (pos - 1) / 4
        · simp only [hsib, ite_true, hz] at hy
          cases hy
          have hxw := h.inOrder c hc hcpos x w hx (hsib ▸ hw)
          exact Key.not_before_trans hxw hwz
        · simp only [hsib, ite_false] at hy
          exact h.inOrder c hc hcpos x y hx hy
  · intro hp c hc hpar x y hx hy
    rw [hslots] at hx hy
    have hup : ((pos - 1) / 4 - 1) / 4 ≠ pos := by omega
    have hup' : ((pos - 1) / 4 - 1) / 4 ≠ (pos - 1) / 4 := by omega
    simp only [hup, hup', ite_false] at hy
    have hwy : ¬ w.1.Before y.1 := h.inOrder _ hp (by omega) w y hw hy
    by_cases hcpos : c = pos
    · simp only [hcpos, ite_true, hw] at hx
      cases hx
      exact hwy
    · have hcp : c ≠ (pos - 1) / 4 := by omega
      simp only [hcpos, hcp, ite_false] at hx
      exact Key.not_before_trans (h.inOrder c hc hcpos x w hx (hpar ▸ hw)) hwy

theorem siftUp_spec : ∀ {fuel pos : Nat} {f : Frontier n}, pos ≤ fuel → pos < f.slots.size → f.Placed → f.UpTo pos →
    (siftUp fuel pos f).WF ∧ ∀ j, (siftUp fuel pos f).find? j = f.find? j := by
  intro fuel
  induction fuel with
  | zero =>
    intro pos f hfuel _ hp hu
    have hpos : pos = 0 := by omega
    exact ⟨⟨hp, fun c hc => hu.inOrder c hc (by omega)⟩, fun _ => rfl⟩
  | succ fuel ih =>
    intro pos f hfuel hlt hp hu
    unfold siftUp
    by_cases hpos : pos = 0
    · rw [if_pos hpos]
      exact ⟨⟨hp, fun c hc => hu.inOrder c hc (by omega)⟩, fun _ => rfl⟩
    · have hlt' : (pos - 1) / 4 < f.slots.size := by omega
      have hz := Array.getElem?_eq_getElem hlt
      have hw := Array.getElem?_eq_getElem hlt'
      simp only [hpos, ite_false]
      split
      · rename_i hless
        have hstep := hu.step (by omega) hz hw ((less_iff hz hw).mp hless)
        obtain ⟨hwf, hfind⟩ := ih (by omega) (by simpa using hlt') (hp.exchange hlt hlt') hstep
        exact ⟨hwf, fun j => (hfind j).trans (hp.find?_exchange hlt hlt' j)⟩
      · rename_i hless
        refine ⟨⟨hp, fun c hc => ?_⟩, fun _ => rfl⟩
        by_cases hcp : c = pos
        · subst hcp
          intro x y hx hy
          exact fun hb => hless ((less_iff hx hy).mpr hb)
        · exact hu.inOrder c hc hcp

/-! ## Moving down -/

/-- All slots are in order except the children of `pos`, which are in order with its parent. -/
structure DownTo (f : Frontier n) (pos : Nat) : Prop where
  inOrder : ∀ c, 0 < c → (c - 1) / 4 ≠ pos → f.InOrder c
  around : 0 < pos → ∀ c, 0 < c → (c - 1) / 4 = pos →
    ∀ x y, f.slots[c]? = some x → f.slots[(pos - 1) / 4]? = some y → ¬ x.1.Before y.1

def BestSlot (f : Frontier n) (seen : List Nat) : Option Nat → Prop
  | none => seen = []
  | some b => b ∈ seen ∧ ∀ c ∈ seen, f.less c b = false

theorem less_self (c : Nat) : f.less c c = false := by
  unfold less
  cases f.slots[c]? with
  | none => rfl
  | some x => simp [Key.not_before_self]

theorem not_less_trans {a b c : Nat} (hb : b < f.slots.size) (hab : f.less a b = false) (hbc : f.less b c = false) :
    f.less a c = false := by
  have hsb := Array.getElem?_eq_getElem hb
  unfold less at *
  cases ha : f.slots[a]? with
  | none => rfl
  | some x =>
    cases hc : f.slots[c]? with
    | none => rfl
    | some z =>
      simp only [ha, hsb, hc, decide_eq_false_iff_not] at *
      exact Key.not_before_trans hab hbc

theorem bestSlot_foldl (l : List Nat) : ∀ {seen : List Nat} {best : Option Nat}, f.BestSlot seen best →
    (∀ c ∈ seen ++ l, c < f.slots.size) →
    f.BestSlot (seen ++ l) (l.foldl (fun best c =>
      match best with
      | none => some c
      | some b => if f.less c b then some c else some b) best) := by
  induction l with
  | nil => intro seen best h _; simpa using h
  | cons c l ih =>
    intro seen best h hlt
    rw [List.foldl_cons, List.append_cons]
    refine ih ?_ (by rwa [← List.append_cons])
    cases best with
    | none =>
      obtain rfl : seen = [] := h
      exact ⟨by simp, fun d hd => by rw [List.mem_singleton.mp hd]; exact less_self c⟩
    | some b =>
      obtain ⟨hb, hleast⟩ := h
      dsimp only
      split
      · rename_i hcb
        refine ⟨by simp, fun d hd => ?_⟩
        rcases List.mem_append.mp hd with hd | hd
        · have hbc : f.less b c = false := by
            unfold less at *
            split at hcb
            · simp only [*, decide_eq_true_eq, decide_eq_false_iff_not] at hcb ⊢
              exact hcb.asymm
            · cases hcb
          exact not_less_trans (hlt b (by simp [hb])) (hleast d hd) hbc
        · rw [List.mem_singleton.mp hd]; exact less_self c
      · rename_i hcb
        refine ⟨by simp [hb], fun d hd => ?_⟩
        rcases List.mem_append.mp hd with hd | hd
        · exact hleast d hd
        · rw [List.mem_singleton.mp hd]; simpa using hcb

theorem bestChild_spec (f : Frontier n) (pos : Nat) :
    match f.bestChild pos with
    | none => f.slots.size ≤ 4 * pos + 1
    | some b => 0 < b ∧ (b - 1) / 4 = pos ∧ b < f.slots.size ∧
        ∀ c, 0 < c → (c - 1) / 4 = pos → c < f.slots.size → f.less c b = false := by
  have hmem : ∀ c, c ∈ List.range' (4 * pos + 1) (min 4 (f.slots.size - (4 * pos + 1))) ↔
      0 < c ∧ (c - 1) / 4 = pos ∧ c < f.slots.size := by
    intro c
    rw [List.mem_range'_1]
    omega
  have h := bestSlot_foldl (f := f) (List.range' (4 * pos + 1) (min 4 (f.slots.size - (4 * pos + 1))))
    (show f.BestSlot [] none from rfl) (fun c hc => ((hmem c).mp hc).2.2)
  rw [List.nil_append] at h
  change f.BestSlot _ (f.bestChild pos) at h
  cases hb : f.bestChild pos with
  | none =>
    rw [hb] at h
    have hnil : ∀ c, ¬ (0 < c ∧ (c - 1) / 4 = pos ∧ c < f.slots.size) := fun c hc => by
      have := (hmem c).mpr hc
      rw [show List.range' _ _ = [] from h] at this
      cases this
    have := hnil (4 * pos + 1)
    dsimp only
    omega
  | some b =>
    rw [hb] at h
    obtain ⟨hb0, hbp, hbs⟩ := (hmem b).mp h.1
    exact ⟨hb0, hbp, hbs, fun c h1 h2 h3 => h.2 c ((hmem c).mpr ⟨h1, h2, h3⟩)⟩

/-- One step down: the children that may be out of order are now those of the best child. -/
theorem DownTo.step {pos b : Nat} {z w : Key × Fin n} (h : f.DownTo pos) (hb : 0 < b) (hbp : (b - 1) / 4 = pos)
    (hz : f.slots[pos]? = some z) (hw : f.slots[b]? = some w) (hwz : w.1.Before z.1)
    (hbest : ∀ c, 0 < c → (c - 1) / 4 = pos → ∀ x, f.slots[c]? = some x → ¬ x.1.Before w.1) :
    (f.exchange pos b).DownTo b := by
  have hlt : pos < f.slots.size := (Array.getElem?_eq_some_iff.mp hz).1
  have hlt' : b < f.slots.size := (Array.getElem?_eq_some_iff.mp hw).1
  have hslots := exchange_slots hlt hlt'
  constructor
  · intro c hc hcb x y hx hy
    rw [hslots] at hx hy
    simp only [hcb, ite_false] at hy
    by_cases hpar : (c - 1) / 4 = pos
    · simp only [hpar, ite_true, hw] at hy
      cases hy
      have hcpos : c ≠ pos := by omega
      simp only [hcpos, ite_false] at hx
      by_cases hcb' : c = b
      · simp only [hcb', ite_true, hz] at hx
        cases hx
        exact hwz.asymm
      · simp only [hcb', ite_false] at hx
        exact hbest c hc hpar x hx
    · simp only [hpar, ite_false] at hy
      by_cases hcpos : c = pos
      · subst hcpos
        simp only [ite_true, hw] at hx
        cases hx
        exact h.around hc b hb hbp w y hw hy
      · have hcb' : c ≠ b := fun e => hpar (e ▸ hbp)
        simp only [hcpos, hcb', ite_false] at hx
        exact h.inOrder c hc hpar x y hx hy
  · intro _ c hc hpar x y hx hy
    rw [hslots] at hx hy
    simp only [hbp, ite_true, hw] at hy
    cases hy
    have hcpos : c ≠ pos := by omega
    have hcb : c ≠ b := by omega
    simp only [hcpos, hcb, ite_false] at hx
    exact h.inOrder c hc (by omega) x w hx (hpar ▸ hw)

theorem DownTo.ordered {pos : Nat} (h : f.DownTo pos) (hsize : f.slots.size ≤ 4 * pos + 1) : f.Ordered := by
  intro c hc
  by_cases hpar : (c - 1) / 4 = pos
  · intro x y hx _
    have := (Array.getElem?_eq_some_iff.mp hx).1
    omega
  · exact h.inOrder c hc hpar

theorem siftDown_spec : ∀ {fuel pos : Nat} {f : Frontier n}, f.slots.size ≤ fuel + pos → f.Placed → f.DownTo pos →
    (siftDown fuel pos f).WF ∧ ∀ j, (siftDown fuel pos f).find? j = f.find? j := by
  intro fuel
  induction fuel with
  | zero => exact fun hfuel hp hd => ⟨⟨hp, hd.ordered (by omega)⟩, fun _ => rfl⟩
  | succ fuel ih =>
    intro pos f hfuel hp hd
    unfold siftDown
    have hbest := bestChild_spec f pos
    cases hbc : f.bestChild pos with
    | none =>
      rw [hbc] at hbest
      exact ⟨⟨hp, hd.ordered hbest⟩, fun _ => rfl⟩
    | some b =>
      rw [hbc] at hbest
      obtain ⟨hb, hbp, hbs, hleast⟩ := hbest
      have hlt : pos < f.slots.size := by omega
      have hz := Array.getElem?_eq_getElem hlt
      have hw := Array.getElem?_eq_getElem hbs
      have hleast' : ∀ c, 0 < c → (c - 1) / 4 = pos → ∀ x, f.slots[c]? = some x → ¬ x.1.Before f.slots[b].1 := by
        intro c hc hpar x hx hbefore
        have := hleast c hc hpar (Array.getElem?_eq_some_iff.mp hx).1
        rw [(less_iff hx hw).mpr hbefore] at this
        cases this
      dsimp only
      split
      · rename_i hless
        have hstep := hd.step hb hbp hz hw ((less_iff hw hz).mp hless) hleast'
        obtain ⟨hwf, hfind⟩ := ih (by rw [exchange_size]; omega) (hp.exchange hlt hbs) hstep
        exact ⟨hwf, fun j => (hfind j).trans (hp.find?_exchange hlt hbs j)⟩
      · rename_i hless
        refine ⟨⟨hp, fun c hc => ?_⟩, fun _ => rfl⟩
        by_cases hpar : (c - 1) / 4 = pos
        · intro x y hx hy
          rw [hpar, hz] at hy
          cases hy
          exact Key.not_before_trans (hleast' c hc hpar x hx) fun hb => hless ((less_iff hw hz).mpr hb)
        · exact hd.inOrder c hc hpar

/-! ## Entering a column -/

section enter

variable {j : Fin n} {key old : Key} {pos : Nat}

def append (f : Frontier n) (j : Fin n) (key : Key) : Frontier n :=
  ⟨f.slots.push (key, j), f.place.put j (some f.slots.size)⟩

theorem append_slots (p : Nat) : (f.append j key).slots[p]? = if p = f.slots.size then some (key, j) else f.slots[p]? :=
  Array.getElem?_push

theorem append_place (k : Fin n) : (f.append j key).place.get k = if k = j then some f.slots.size else f.place.get k :=
  Vector.get_put ..

theorem Placed.append (h : f.Placed) (hj : f.place.get j = none) : (f.append j key).Placed := by
  intro k p
  rw [append_slots, append_place]
  by_cases hkj : k = j
  · subst hkj
    rw [if_pos rfl]
    constructor
    · intro hp
      cases hp
      exact ⟨key, if_pos rfl⟩
    · rintro ⟨old, hold⟩
      split at hold
      · rename_i hp
        rw [hp]
      · rw [(h k p).mpr ⟨old, hold⟩] at hj
        cases hj
  · rw [if_neg hkj, h k p]
    refine exists_congr fun old => ?_
    split
    · rename_i hp
      simp [hp, Ne.symm hkj]
    · rfl

theorem Placed.find?_append (h : f.Placed) (k : Fin n) :
    (f.append j key).find? k = if k = j then some key else f.find? k := by
  unfold find?
  rw [append_place]
  by_cases hk : k = j
  · simp [hk, append_slots]
  · rw [if_neg hk, if_neg hk]
    cases hp : f.place.get k with
    | none => rfl
    | some p =>
      obtain ⟨l, hl⟩ := (h k p).mp hp
      have hlt := (Array.getElem?_eq_some_iff.mp hl).1
      rw [Option.bind_some, Option.bind_some, append_slots, if_neg (Nat.ne_of_lt hlt)]

theorem Ordered.append (h : f.Ordered) : (f.append j key).UpTo f.slots.size := by
  constructor
  · intro c hc hcp x y hx hy
    rw [append_slots, if_neg hcp] at hx
    have := (Array.getElem?_eq_some_iff.mp hx).1
    rw [append_slots, if_neg (by omega)] at hy
    exact h c hc x y hx hy
  · intro _ c hc hpar x y hx
    have hlt := (Array.getElem?_eq_some_iff.mp hx).1
    have hsize : (f.append j key).slots.size = f.slots.size + 1 := Array.size_push ..
    omega

theorem pushOrDecrease_of_place_eq_none (hj : f.place.get j = none) :
    f.pushOrDecrease j key = (true, siftUp f.slots.size f.slots.size (f.append j key)) := by
  simp only [pushOrDecrease, hj, append]

theorem WF.pushOrDecrease_of_none (h : f.WF) (key : Key) (hj : f.find? j = none) :
    (f.pushOrDecrease j key).1 = true ∧ (f.pushOrDecrease j key).2.WF ∧
      ∀ k, (f.pushOrDecrease j key).2.find? k = if k = j then some key else f.find? k := by
  rw [h.placed.find?_eq_none_iff] at hj
  rw [pushOrDecrease_of_place_eq_none hj]
  have hlt : f.slots.size < (f.append j key).slots.size := by simp [append]
  obtain ⟨hwf, hfind⟩ := siftUp_spec (Nat.le_refl _) hlt (h.placed.append hj) h.ordered.append
  exact ⟨rfl, hwf, fun k => (hfind k).trans (h.placed.find?_append k)⟩

/-! ## Lowering a key -/

def rekey (f : Frontier n) (pos : Nat) (h : pos < f.slots.size) (key : Key) : Frontier n :=
  { f with slots := f.slots.set pos (key, f.slots[pos].2) }

theorem rekey_slots (hlt : pos < f.slots.size) (hpos : f.slots[pos]? = some (old, j)) (p : Nat) :
    (f.rekey pos hlt key).slots[p]? = if p = pos then some (key, j) else f.slots[p]? := by
  obtain ⟨_, hget⟩ := Array.getElem?_eq_some_iff.mp hpos
  simp only [rekey, Array.getElem?_set, hget, eq_comm]

theorem Placed.rekey (h : f.Placed) (hlt : pos < f.slots.size) (hpos : f.slots[pos]? = some (old, j)) :
    (f.rekey pos hlt key).Placed := by
  intro k p
  rw [rekey_slots hlt hpos]
  change f.place.get k = some p ↔ _
  rw [h k p]
  split
  · rename_i hp
    rw [hp, hpos]
    simp
  · rfl

theorem Placed.find?_rekey (h : f.Placed) (hlt : pos < f.slots.size) (hpos : f.slots[pos]? = some (old, j))
    (k : Fin n) :
    (f.rekey pos hlt key).find? k = if k = j then some key else f.find? k := by
  unfold find?
  change (f.place.get k).bind _ = _
  by_cases hk : k = j
  · rw [if_pos hk, hk, (h j pos).mpr ⟨old, hpos⟩, Option.bind_some, rekey_slots hlt hpos, if_pos rfl]
    rfl
  · rw [if_neg hk]
    cases hp : f.place.get k with
    | none => rfl
    | some p =>
      have hne : p ≠ pos := by
        rintro rfl
        obtain ⟨l, hl⟩ := (h k p).mp hp
        rw [hpos] at hl
        cases hl
        exact hk rfl
      rw [Option.bind_some, Option.bind_some, rekey_slots hlt hpos, if_neg hne]

/-- If the key in one slot is lowered, no other slot gets out of order. -/
theorem Ordered.rekey (h : f.Ordered) (hlt : pos < f.slots.size) (hpos : f.slots[pos]? = some (old, j))
    (hb : key.Before old) : (f.rekey pos hlt key).UpTo pos := by
  have hchild : ∀ c, 0 < c → (c - 1) / 4 = pos → ∀ x, f.slots[c]? = some x → ¬ x.1.Before old :=
    fun c hc hpar x hx => h c hc x (old, j) hx (hpar ▸ hpos)
  constructor
  · intro c hc hcp x y hx hy
    rw [rekey_slots hlt hpos, if_neg hcp] at hx
    rw [rekey_slots hlt hpos] at hy
    split at hy
    · rename_i hpar
      cases hy
      exact Key.not_before_trans (hchild c hc hpar x hx) hb.asymm
    · exact h c hc x y hx hy
  · intro h0 c hc hpar x y hx hy
    rw [rekey_slots hlt hpos, if_neg (by omega)] at hx hy
    exact Key.not_before_trans (hchild c hc hpar x hx) (h pos h0 _ y hpos hy)

theorem pushOrDecrease_of_place_eq_some (hplace : f.place.get j = some pos) (hlt : pos < f.slots.size)
    (hpos : f.slots[pos]? = some (old, j)) :
    f.pushOrDecrease j key = if key.Before old then (true, siftUp pos pos (f.rekey pos hlt key)) else (false, f) := by
  obtain ⟨_, hget⟩ := Array.getElem?_eq_some_iff.mp hpos
  simp only [pushOrDecrease, hplace, hlt, dite_true, hget, rekey]

theorem WF.pushOrDecrease_of_some (h : f.WF) (key : Key) (hj : f.find? j = some old) :
    ((f.pushOrDecrease j key).1 = true ↔ key.Before old) ∧ (f.pushOrDecrease j key).2.WF ∧
      ∀ k, (f.pushOrDecrease j key).2.find? k = if k = j ∧ key.Before old then some key else f.find? k := by
  obtain ⟨pos, hpos⟩ := h.placed.find?_eq_some_iff.mp hj
  have hlt := (Array.getElem?_eq_some_iff.mp hpos).1
  rw [pushOrDecrease_of_place_eq_some ((h.placed j pos).mpr ⟨old, hpos⟩) hlt hpos]
  by_cases hb : key.Before old
  · have hsize : pos < (f.rekey pos hlt key).slots.size := by simpa [rekey] using hlt
    obtain ⟨hwf, hfind⟩ := siftUp_spec (Nat.le_refl _) hsize (h.placed.rekey hlt hpos) (h.ordered.rekey hlt hpos hb)
    simp only [hb, ite_true, and_true, true_and]
    exact ⟨hwf, fun k => (hfind k).trans (h.placed.find?_rekey hlt hpos k)⟩
  · rw [if_neg hb]
    exact ⟨by simp [hb], h, fun k => by simp [hb]⟩

end enter

/-! ## Taking out the first column -/

section pop

variable {j : Fin n} {key : Key}

theorem Ordered.root (h : f.Ordered) {w : Key × Fin n} (hw : f.slots[0]? = some w) :
    ∀ (p : Nat) (x : Key × Fin n), f.slots[p]? = some x → ¬ x.1.Before w.1 := by
  intro p
  induction p using Nat.strongRecOn with
  | ind p ih =>
    intro x hx
    by_cases hp : p = 0
    · subst hp
      rw [hw] at hx
      cases hx
      exact Key.not_before_self _
    · have hlt : (p - 1) / 4 < f.slots.size := by
        have := (Array.getElem?_eq_some_iff.mp hx).1
        omega
      have hy := Array.getElem?_eq_getElem hlt
      exact Key.not_before_trans (h p (by omega) x _ hx hy) (ih _ (by omega) _ hy)

def dropLast (f : Frontier n) (j : Fin n) : Frontier n := ⟨f.slots.pop, f.place.put j none⟩

theorem dropLast_slots (p : Nat) :
    (f.dropLast j).slots[p]? = if p < f.slots.size - 1 then f.slots[p]? else none :=
  Array.getElem?_pop

theorem dropLast_place (k : Fin n) : (f.dropLast j).place.get k = if k = j then none else f.place.get k :=
  Vector.get_put ..

theorem Placed.lt_last (h : f.Placed) (hlast : f.slots[f.slots.size - 1]? = some (key, j)) {k : Fin n} {p : Nat}
    (hk : k ≠ j) (hp : f.place.get k = some p) : p < f.slots.size - 1 := by
  obtain ⟨l, hl⟩ := (h k p).mp hp
  have hlt := (Array.getElem?_eq_some_iff.mp hl).1
  have hne : p ≠ f.slots.size - 1 := by
    rintro rfl
    rw [hlast] at hl
    cases hl
    exact hk rfl
  omega

theorem Placed.dropLast (h : f.Placed) (hlast : f.slots[f.slots.size - 1]? = some (key, j)) :
    (f.dropLast j).Placed := by
  intro k p
  rw [dropLast_slots, dropLast_place]
  by_cases hk : k = j
  · subst hk
    simp only [ite_true, reduceCtorEq, false_iff]
    rintro ⟨l, hl⟩
    split at hl
    · rename_i hp
      have hsame := ((h k p).mpr ⟨l, hl⟩).symm.trans ((h k _).mpr ⟨key, hlast⟩)
      cases hsame
      omega
    · cases hl
  · rw [if_neg hk]
    constructor
    · intro hp
      rw [if_pos (h.lt_last hlast hk hp)]
      exact (h k p).mp hp
    · rintro ⟨l, hl⟩
      split at hl
      · exact (h k p).mpr ⟨l, hl⟩
      · cases hl

theorem Placed.find?_dropLast (h : f.Placed) (hlast : f.slots[f.slots.size - 1]? = some (key, j)) (k : Fin n) :
    (f.dropLast j).find? k = if k = j then none else f.find? k := by
  unfold find?
  rw [dropLast_place]
  by_cases hk : k = j
  · rw [if_pos hk, if_pos hk]
    rfl
  · rw [if_neg hk, if_neg hk]
    cases hp : f.place.get k with
    | none => rfl
    | some p => rw [Option.bind_some, Option.bind_some, dropLast_slots, if_pos (h.lt_last hlast hk hp)]

/-- With the last slot moved to the root, only the children of the root may be out of order. -/
theorem Ordered.exchange_dropLast (h : f.Ordered) (hsize : 0 < f.slots.size) :
    ((f.exchange 0 (f.slots.size - 1)).dropLast j).DownTo 0 := by
  have hslots := exchange_slots hsize (Nat.sub_one_lt_of_lt hsize)
  constructor
  · intro c hc hpar x y hx hy
    rw [dropLast_slots, exchange_size] at hx hy
    split at hx
    · rename_i hcs
      have hpar' : (c - 1) / 4 < f.slots.size - 1 := by omega
      rw [hslots, if_neg (by omega), if_neg (by omega)] at hx
      rw [if_pos hpar', hslots, if_neg hpar, if_neg (by omega)] at hy
      exact h c hc x y hx hy
    · cases hx
  · intro h0
    exact absurd h0 (Nat.lt_irrefl 0)

def popped (f : Frontier n) (j : Fin n) : Frontier n :=
  siftDown (f.slots.size - 1) 0 ((f.exchange 0 (f.slots.size - 1)).dropLast j)

theorem exchange_last (hroot : f.slots[0]? = some (key, j)) :
    (f.exchange 0 (f.slots.size - 1)).slots[(f.exchange 0 (f.slots.size - 1)).slots.size - 1]? = some (key, j) := by
  have hsize := (Array.getElem?_eq_some_iff.mp hroot).1
  rw [exchange_size, exchange_slots hsize (Nat.sub_one_lt_of_lt hsize), if_pos rfl]
  split
  · rename_i h
    rw [h, hroot]
  · exact hroot

theorem pop_of_root (hroot : f.slots[0]? = some (key, j)) : f.pop = some (j, key, f.popped j) := by
  have hback : (f.exchange 0 (f.slots.size - 1)).slots.back? = some (key, j) := by
    rw [Array.back?_eq_getElem?, exchange_last hroot]
  simp only [pop, hback, popped, dropLast, Array.size_pop, exchange_size]

theorem pop_of_size_eq_zero (hsize : f.slots.size = 0) : f.pop = none := by
  have hback : (f.exchange 0 (f.slots.size - 1)).slots.back? = none := by
    rw [Array.back?_eq_none_iff, ← Array.size_eq_zero_iff, exchange_size, hsize]
  simp only [pop, hback]

theorem WF.pop_eq_none (h : f.WF) (hpop : f.pop = none) (j : Fin n) : f.find? j = none := by
  refine Option.eq_none_iff_forall_ne_some.mpr fun key hkey => ?_
  obtain ⟨p, hp⟩ := h.placed.find?_eq_some_iff.mp hkey
  have hlt := (Array.getElem?_eq_some_iff.mp hp).1
  rw [pop_of_root (Array.getElem?_eq_getElem (Nat.zero_lt_of_lt hlt))] at hpop
  cases hpop

theorem WF.popped (h : f.WF) (hroot : f.slots[0]? = some (key, j)) :
    (f.popped j).WF ∧ ∀ k, (f.popped j).find? k = if k = j then none else f.find? k := by
  have hsize := (Array.getElem?_eq_some_iff.mp hroot).1
  have hlast : f.slots.size - 1 < f.slots.size := Nat.sub_one_lt_of_lt hsize
  have hex := h.placed.exchange hsize hlast
  have hfuel : ((f.exchange 0 (f.slots.size - 1)).dropLast j).slots.size ≤ f.slots.size - 1 + 0 := by simp [dropLast]
  obtain ⟨hwf, hfind⟩ := siftDown_spec hfuel (hex.dropLast (exchange_last hroot)) (h.ordered.exchange_dropLast hsize)
  refine ⟨hwf, fun k => ?_⟩
  calc (f.popped j).find? k
    _ = ((f.exchange 0 (f.slots.size - 1)).dropLast j).find? k := hfind k
    _ = if k = j then none else (f.exchange 0 (f.slots.size - 1)).find? k := hex.find?_dropLast (exchange_last hroot) k
    _ = if k = j then none else f.find? k := by rw [h.placed.find?_exchange hsize hlast]

theorem WF.pop_eq_some {g : Frontier n} (h : f.WF) (hpop : f.pop = some (j, key, g)) :
    f.find? j = some key ∧ (∀ k l, f.find? k = some l → ¬ l.Before key) ∧
      g.WF ∧ ∀ k, g.find? k = if k = j then none else f.find? k := by
  cases hroot : f.slots[0]? with
  | none =>
    rw [pop_of_size_eq_zero (Nat.le_zero.mp (Array.getElem?_eq_none_iff.mp hroot))] at hpop
    cases hpop
  | some w =>
    rw [pop_of_root hroot] at hpop
    cases hpop
    refine ⟨h.placed.find?_eq_some_iff.mpr ⟨0, hroot⟩, fun k l hl => ?_, h.popped hroot⟩
    obtain ⟨p, hp⟩ := h.placed.find?_eq_some_iff.mp hl
    exact h.ordered.root hroot p _ hp

end pop

/-! ## No columns -/

theorem empty_wf (n : Nat) : (empty n).WF where
  placed j p := by simp [empty, Vector.get]
  ordered c _ x y hx := by simp [empty] at hx

theorem find?_empty (j : Fin n) : (empty n).find? j = none := by simp [find?, empty, Vector.get]

theorem Placed.clear_place (h : f.Placed) (j : Fin n) : f.clear.place.get j = none := by
  obtain ⟨hin, hout⟩ := Vector.get_foldl_put Prod.snd none f.slots.toList f.place j
  rw [clear, ← Array.foldl_toList]
  by_cases hj : j ∈ f.slots.toList.map (·.2)
  · exact hin hj
  · refine (hout hj).trans (Option.eq_none_iff_forall_ne_some.mpr fun p hp => hj ?_)
    obtain ⟨key, hkey⟩ := (h j p).mp hp
    rw [List.mem_map]
    exact ⟨(key, j), Array.mem_toList_iff.mpr (Array.mem_of_getElem? hkey), rfl⟩

theorem Placed.clear_wf (h : f.Placed) : f.clear.WF where
  placed j p := by
    rw [h.clear_place]
    simp [clear]
  ordered c _ x y hx := by simp [clear] at hx

theorem Placed.find?_clear (h : f.Placed) (j : Fin n) : f.clear.find? j = none := by
  rw [h.clear_wf.placed.find?_eq_none_iff, h.clear_place]

end Frontier

end SigmaMethod
