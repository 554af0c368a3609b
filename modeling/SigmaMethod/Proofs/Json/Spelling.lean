import SigmaMethod.Json.Tree
import SigmaMethod.Json.Reader

/-!
# Texts of a JSON value

A value has many texts: blanks may stand between any two of its tokens. `Spells t s` says that `s` is one of the texts
of `t`. Both forms in which values go out, compact and indented, are.
-/

namespace SigmaMethod.Json

def Gap (g : List Char) : Prop := ∀ c ∈ g, isBlank c = true

theorem Gap.nil : Gap [] := by simp [Gap]

theorem gap_blank : Gap [' '] := by simp [Gap, isBlank]

theorem gap_newLine (level : Nat) : Gap (newLine level) := by
  intro c hc
  rcases List.mem_cons.mp hc with rfl | hc
  · decide
  · rw [List.eq_of_mem_replicate hc]; decide

/-- What stands in front of an item or a member: a comma, unless it is the first. -/
inductive Lead : (first : Bool) → List Char → Prop
  | first {g : List Char} (hg : Gap g) : Lead true g
  | next {g g' : List Char} (hg : Gap g) (hg' : Gap g') : Lead false (g ++ ',' :: g')

mutual

inductive Spells : Tree → List Char → Prop
  | null : Spells .null "null".toList
  | bool (b : Bool) : Spells (.bool b) (boolText b)
  | int (x : Int) : Spells (.int x) (Text.intText x)
  | word (w : String) : Spells (.word w) (quoted w)
  | list {items : List Tree} {s : List Char} (h : SpellsItems true items s) :
      Spells (.list items) ('[' :: s)
  | object {members : List (String × Tree)} {s : List Char} (h : SpellsMembers true members s) :
      Spells (.object members) ('\x7b' :: s)

inductive SpellsItems : (first : Bool) → List Tree → List Char → Prop
  | close {first : Bool} {g : List Char} (hg : Gap g) : SpellsItems first [] (g ++ [']'])
  | item {first : Bool} {lead s u : List Char} {t : Tree} {ts : List Tree} (hl : Lead first lead)
      (ht : Spells t s) (hts : SpellsItems false ts u) :
      SpellsItems first (t :: ts) (lead ++ (s ++ u))

inductive SpellsMembers : (first : Bool) → List (String × Tree) → List Char → Prop
  | close {first : Bool} {g : List Char} (hg : Gap g) : SpellsMembers first [] (g ++ ['\x7d'])
  | member {first : Bool} {lead g g' s u : List Char} {k : String} {t : Tree}
      {ms : List (String × Tree)} (hl : Lead first lead) (hg : Gap g) (hg' : Gap g')
      (ht : Spells t s) (hms : SpellsMembers false ms u) :
      SpellsMembers first ((k, t) :: ms) (lead ++ (quoted k ++ (g ++ ':' :: (g' ++ (s ++ u)))))

end

/-! ## Compact -/

theorem SpellsItems.after_comma {t : Tree} {ts : List Tree} {s : List Char}
    (h : SpellsItems true (t :: ts) s) : SpellsItems false (t :: ts) (',' :: s) := by
  cases h with
  | item hl ht hts => cases hl with | first hg => exact .item (.next .nil hg) ht hts

theorem SpellsMembers.after_comma {m : String × Tree} {ms : List (String × Tree)} {s : List Char}
    (h : SpellsMembers true (m :: ms) s) : SpellsMembers false (m :: ms) (',' :: s) := by
  cases h with
  | member hl hg hg' ht hms => cases hl with | first h => exact .member (.next .nil h) hg hg' ht hms

mutual

theorem Tree.spells_compact : ∀ t : Tree, Spells t t.compact
  | .null => .null
  | .bool b => .bool b
  | .int x => .int x
  | .word w => .word w
  | .list items => .list (spellsItems_compact items)
  | .object members => .object (spellsMembers_compact members)

theorem spellsItems_compact : ∀ ts : List Tree, SpellsItems true ts (compactItems ts)
  | [] => .close .nil
  | [t] => .item (.first .nil) t.spells_compact (.close .nil)
  | t :: t' :: ts => .item (.first .nil) t.spells_compact (spellsItems_compact (t' :: ts)).after_comma

theorem spellsMembers_compact : ∀ ms : List (String × Tree), SpellsMembers true ms (compactMembers ms)
  | [] => .close .nil
  | [(k, t)] => by
    simpa [compactMembers] using .member (.first .nil) .nil .nil t.spells_compact (.close .nil)
  | (k, t) :: m :: ms => by
    simpa [compactMembers] using
      .member (.first .nil) .nil .nil t.spells_compact (spellsMembers_compact (m :: ms)).after_comma

end

/-! ## Indented -/

mutual

theorem Tree.spells_indented : ∀ (t : Tree) (level : Nat), Spells t (t.indented level)
  | .null, _ => .null
  | .bool b, _ => .bool b
  | .int x, _ => .int x
  | .word w, _ => .word w
  | .list [], _ => .list (.close .nil)
  | .list (t :: ts), level => by
    simpa [Tree.indented] using .list (.item (.first (gap_newLine _)) (t.spells_indented (level + 1))
      (spellsItems_indented ts level))
  | .object [], _ => .object (.close .nil)
  | .object ((k, t) :: ms), level => by
    simpa [Tree.indented] using .object (.member (.first (gap_newLine _)) .nil gap_blank
      (t.spells_indented (level + 1)) (spellsMembers_indented ms level))

theorem spellsItems_indented :
    ∀ (ts : List Tree) (level : Nat), SpellsItems false ts (indentedItems level ts)
  | [], level => .close (gap_newLine level)
  | t :: ts, level => by
    simpa [indentedItems] using .item (.next .nil (gap_newLine _)) (t.spells_indented (level + 1))
      (spellsItems_indented ts level)

theorem spellsMembers_indented :
    ∀ (ms : List (String × Tree)) (level : Nat), SpellsMembers false ms (indentedMembers level ms)
  | [], level => .close (gap_newLine level)
  | (k, t) :: ms, level => by
    simpa [indentedMembers] using .member (.next .nil (gap_newLine _)) .nil gap_blank
      (t.spells_indented (level + 1)) (spellsMembers_indented ms level)

end

end SigmaMethod.Json
