import Mathlib.Data.List.Infix
import Mathlib.Logic.Function.Basic
import SigmaMethod.Proofs.Matching.Frontier

/-!
# Calls on a frontier

Whatever is called on a new frontier, it answers as a finite map from columns to keys does. Such a map leaves open which
of several first columns it pops. While the sequence numbers tell its columns apart there is one first column, so all
answers are determined.
-/

namespace SigmaMethod

variable {n : Nat}

/-! ## The map -/

abbrev PriorityMap (n : Nat) := Fin n → Option Key

namespace Frontier

inductive Call (n : Nat) where
  | pushOrDecrease (j : Fin n) (key : Key)
  | pop
  | clear

inductive Answer (n : Nat) where
  | changed (yes : Bool)
  | popped (first : Option (Fin n × Key))
  | cleared
deriving DecidableEq

end Frontier

open Frontier (Call Answer)

namespace PriorityMap

variable {q r t : PriorityMap n} {c : Call n} {a b : Answer n}

def empty (n : Nat) : PriorityMap n := fun _ => none

inductive Answers : PriorityMap n → Call n → Answer n → PriorityMap n → Prop
  | enter {q : PriorityMap n} {j : Fin n} {key : Key} : q j = none →
      Answers q (.pushOrDecrease j key) (.changed true) (Function.update q j (some key))
  | lower {q : PriorityMap n} {j : Fin n} {key old : Key} : q j = some old → key.Before old →
      Answers q (.pushOrDecrease j key) (.changed true) (Function.update q j (some key))
  | keep {q : PriorityMap n} {j : Fin n} {key old : Key} : q j = some old → ¬ key.Before old →
      Answers q (.pushOrDecrease j key) (.changed false) q
  | none {q : PriorityMap n} : (∀ j, q j = none) → Answers q .pop (.popped none) q
  | first {q : PriorityMap n} {j : Fin n} {key : Key} : q j = some key → (∀ k l, q k = some l → ¬ l.Before key) →
      Answers q .pop (.popped (some (j, key))) (Function.update q j none)
  | clear {q : PriorityMap n} : Answers q .clear .cleared (empty n)

inductive Plays : PriorityMap n → List (Call n) → List (Answer n) → PriorityMap n → Prop
  | nil {q : PriorityMap n} : Plays q [] [] q
  | cons {q r t : PriorityMap n} {c : Call n} {a : Answer n} {cs : List (Call n)} {as : List (Answer n)} :
      Answers q c a r → Plays r cs as t → Plays q (c :: cs) (a :: as) t

def Apart (q : PriorityMap n) : Prop := ∀ j k, j ≠ k → ∀ a ∈ q j, ∀ b ∈ q k, a.seq ≠ b.seq

instance : Decidable (Apart q) := inferInstanceAs (Decidable (∀ j k, j ≠ k → ∀ a ∈ q j, ∀ b ∈ q k, a.seq ≠ b.seq))

theorem Apart.first_unique (h : q.Apart) {j k : Fin n} {key l : Key} (hj : q j = some key) (hk : q k = some l)
    (hkey : ¬ l.Before key) (hl : ¬ key.Before l) : j = k ∧ key = l := by
  have heq : key = l := Key.eq_of_not_before hl hkey
  refine ⟨?_, heq⟩
  by_cases hjk : j = k
  · exact hjk
  · exact absurd (congrArg Key.seq heq) (h j k hjk key hj l hk)

theorem Apart.answers_unique (h : q.Apart) (hr : q.Answers c a r) (ht : q.Answers c b t) : a = b ∧ r = t := by
  cases hr with
  | enter hj =>
    cases ht with
    | enter => exact ⟨rfl, rfl⟩
    | lower => exact ⟨rfl, rfl⟩
    | keep hold => rw [hj] at hold; cases hold
  | lower hj hb =>
    cases ht with
    | enter => exact ⟨rfl, rfl⟩
    | lower => exact ⟨rfl, rfl⟩
    | keep hold hnot =>
      rw [hj] at hold
      cases hold
      exact absurd hb hnot
  | keep hj hnot =>
    cases ht with
    | enter hnone => rw [hj] at hnone; cases hnone
    | lower hold hb =>
      rw [hj] at hold
      cases hold
      exact absurd hb hnot
    | keep => exact ⟨rfl, rfl⟩
  | none hnone =>
    cases ht with
    | none => exact ⟨rfl, rfl⟩
    | first hk => rw [hnone] at hk; cases hk
  | first hj hleast =>
    cases ht with
    | none hnone => rw [hnone] at hj; cases hj
    | first hk hleast' =>
      -- neither of the two keys goes before the other
      obtain ⟨rfl, rfl⟩ := h.first_unique hj hk (hleast _ _ hk) (hleast' _ _ hj)
      exact ⟨rfl, rfl⟩
  | clear =>
    cases ht with
    | clear => exact ⟨rfl, rfl⟩

end PriorityMap

namespace Frontier

variable {f : Frontier n}

/-! ## The frontier -/

def call (f : Frontier n) : Call n → Answer n × Frontier n
  | .pushOrDecrease j key => (.changed (f.pushOrDecrease j key).1, (f.pushOrDecrease j key).2)
  | .pop =>
    match f.pop with
    | none => (.popped none, f)
    | some (j, key, g) => (.popped (some (j, key)), g)
  | .clear => (.cleared, f.clear)

def calls : Frontier n → List (Call n) → List (Answer n) × Frontier n
  | f, [] => ([], f)
  | f, c :: cs => ((f.call c).1 :: ((f.call c).2.calls cs).1, ((f.call c).2.calls cs).2)

theorem WF.pushOrDecrease_answers (h : f.WF) (j : Fin n) (key : Key) :
    (f.pushOrDecrease j key).2.WF ∧ PriorityMap.Answers f.find? (.pushOrDecrease j key)
      (.changed (f.pushOrDecrease j key).1) (f.pushOrDecrease j key).2.find? := by
  cases hj : f.find? j with
  | none =>
    obtain ⟨hchanged, hwf, hfind⟩ := h.pushOrDecrease_of_none key hj
    have hmap : (f.pushOrDecrease j key).2.find? = Function.update f.find? j (some key) :=
      funext fun k => by rw [hfind, Function.update_apply]
    rw [hchanged, hmap]
    exact ⟨hwf, .enter hj⟩
  | some old =>
    obtain ⟨hchanged, hwf, hfind⟩ := h.pushOrDecrease_of_some key hj
    refine ⟨hwf, ?_⟩
    by_cases hb : key.Before old
    · have hmap : (f.pushOrDecrease j key).2.find? = Function.update f.find? j (some key) :=
        funext fun k => by rw [hfind, Function.update_apply]; simp only [hb, and_true]
      rw [hchanged.mpr hb, hmap]
      exact .lower hj hb
    · have hmap : (f.pushOrDecrease j key).2.find? = f.find? :=
        funext fun k => by rw [hfind]; simp only [hb, and_false, ite_false]
      rw [Bool.eq_false_iff.mpr (mt hchanged.mp hb), hmap]
      exact .keep hj hb

/-- **A call is answered as the map answers it.** -/
theorem WF.call_answers (h : f.WF) (c : Call n) :
    (f.call c).2.WF ∧ PriorityMap.Answers f.find? c (f.call c).1 (f.call c).2.find? := by
  cases c with
  | pushOrDecrease j key => exact h.pushOrDecrease_answers j key
  | pop =>
    unfold call
    dsimp only
    cases hpop : f.pop with
    | none => exact ⟨h, .none (h.pop_eq_none hpop)⟩
    | some first =>
      obtain ⟨j, key, g⟩ := first
      obtain ⟨hj, hleast, hwf, hfind⟩ := h.pop_eq_some hpop
      have hmap : g.find? = Function.update f.find? j none := funext fun k => by rw [hfind, Function.update_apply]
      dsimp only
      rw [hmap]
      exact ⟨hwf, .first hj hleast⟩
  | clear =>
    have hmap : (f.call .clear).2.find? = PriorityMap.empty n := funext h.placed.find?_clear
    rw [hmap]
    exact ⟨h.placed.clear_wf, .clear⟩

theorem WF.calls_play (h : f.WF) (cs : List (Call n)) :
    (f.calls cs).2.WF ∧ PriorityMap.Plays f.find? cs (f.calls cs).1 (f.calls cs).2.find? := by
  induction cs generalizing f with
  | nil => exact ⟨h, .nil⟩
  | cons c cs ih =>
    obtain ⟨hwf, hanswer⟩ := h.call_answers c
    obtain ⟨hwf', hplay⟩ := ih hwf
    exact ⟨hwf', .cons hanswer hplay⟩

theorem WF.calls_unique {answers : List (Answer n)} {q : PriorityMap n} (h : f.WF) (cs : List (Call n))
    (hapart : ∀ done ∈ cs.inits, PriorityMap.Apart (f.calls done).2.find?)
    (hplay : PriorityMap.Plays f.find? cs answers q) : answers = (f.calls cs).1 ∧ q = (f.calls cs).2.find? := by
  induction cs generalizing f answers with
  | nil =>
    cases hplay
    exact ⟨rfl, rfl⟩
  | cons c cs ih =>
    cases hplay with
    | cons hanswer hrest =>
      obtain ⟨hwf, hown⟩ := h.call_answers c
      have hnow : PriorityMap.Apart f.find? := hapart [] (by simp)
      -- the play and the frontier agree on the first answer, so they go on from one map
      obtain ⟨rfl, rfl⟩ := hnow.answers_unique hanswer hown
      have hlater : ∀ done ∈ cs.inits, PriorityMap.Apart ((f.call c).2.calls done).2.find? := by
        intro done hdone
        refine hapart (c :: done) ?_
        rw [List.mem_inits] at hdone ⊢
        exact List.cons_prefix_cons.mpr ⟨rfl, hdone⟩
      obtain ⟨rfl, rfl⟩ := ih hwf hlater hrest
      exact ⟨rfl, rfl⟩

structure Holds (f : Frontier n) (q : PriorityMap n) : Prop where
  sits : ∀ j key, q j = some key ↔ f.Sits j key
  placed : f.Placed
  once : ∀ (j : Fin n) (a b : Nat) (key l : Key), f.slots[a]? = some (key, j) → f.slots[b]? = some (l, j) → a = b
  ordered : f.Ordered

theorem WF.holds (h : f.WF) : f.Holds f.find? where
  sits _ _ := h.placed.find?_eq_some_iff
  placed := h.placed
  once j a b key l ha hb := by
    have hplace := (h.placed j a).mpr ⟨key, ha⟩
    rw [(h.placed j b).mpr ⟨l, hb⟩] at hplace
    exact (Option.some.inj hplace).symm
  ordered := h.ordered

/-- **The frontier is a priority map.** -/
theorem calls_refine (cs : List (Call n)) :
    PriorityMap.Plays (.empty n) cs ((empty n).calls cs).1 ((empty n).calls cs).2.find? ∧
      ((empty n).calls cs).2.Holds ((empty n).calls cs).2.find? ∧
      ((∀ done ∈ cs.inits, PriorityMap.Apart ((empty n).calls done).2.find?) →
        ∀ answers q, PriorityMap.Plays (.empty n) cs answers q →
          answers = ((empty n).calls cs).1 ∧ q = ((empty n).calls cs).2.find?) := by
  have hempty : (empty n).find? = PriorityMap.empty n := funext find?_empty
  obtain ⟨hwf, hplay⟩ := (empty_wf n).calls_play cs
  rw [hempty] at hplay
  refine ⟨hplay, hwf.holds, fun hapart answers q hq => ?_⟩
  rw [← hempty] at hq
  exact (empty_wf n).calls_unique cs hapart hq

/-- Three columns tie for the first place, one of them with a lowered key, and the numbers start again after `clear`. -/
def ties : List (Call 6) :=
  [.pushOrDecrease 3 ⟨1, 0⟩, .pushOrDecrease 0 ⟨1, 1⟩, .pushOrDecrease 2 ⟨0, 2⟩, .pushOrDecrease 5 ⟨4, 3⟩,
    .pushOrDecrease 1 ⟨4, 4⟩, .pushOrDecrease 4 ⟨9, 5⟩, .pushOrDecrease 4 ⟨1, 5⟩, .pushOrDecrease 0 ⟨2, 1⟩,
    .pop, .pop, .pop, .pop, .clear, .pushOrDecrease 5 ⟨7, 0⟩, .pop, .pop]

theorem calls_refine_ties :
    (∀ done ∈ ties.inits, PriorityMap.Apart ((empty 6).calls done).2.find?) ∧
      ((empty 6).calls ties).2.Holds ((empty 6).calls ties).2.find? ∧
      ∀ answers q, PriorityMap.Plays (.empty 6) ties answers q → answers =
        [.changed true, .changed true, .changed true, .changed true, .changed true, .changed true, .changed true,
          .changed false, .popped (some (2, ⟨0, 2⟩)), .popped (some (3, ⟨1, 0⟩)), .popped (some (0, ⟨1, 1⟩)),
          .popped (some (4, ⟨1, 5⟩)), .cleared, .changed true, .popped (some (5, ⟨7, 0⟩)), .popped none] := by
  have hapart : ∀ done ∈ ties.inits, PriorityMap.Apart ((empty 6).calls done).2.find? := by decide +kernel
  obtain ⟨-, hholds, hunique⟩ := calls_refine ties
  refine ⟨hapart, hholds, fun answers q hq => ?_⟩
  rw [(hunique hapart answers q hq).1]
  decide +kernel

end Frontier

end SigmaMethod
