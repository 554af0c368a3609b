/-!
# Values by line

A line of a problem is a row or a column. What is kept for each of its `n` lines is a vector, read with `get` and
written with `put` at a line, which is in range by its type. `get_put` says what a write does.
-/

namespace Vector

variable {α : Type} {n : Nat}

def put (v : Vector α n) (i : Fin n) (x : α) : Vector α n := v.set i x i.isLt

/-- **A write changes one line.** -/
theorem get_put (v : Vector α n) (i k : Fin n) (x : α) : (v.put i x).get k = if k = i then x else v.get k := by
  change (v.set i x i.isLt)[k.val] = if k = i then x else v[k.val]
  rw [Vector.getElem_set]
  simp only [Fin.ext_iff, eq_comm]

/-- A loop that writes one value at the lines `f` names changes these lines only. -/
theorem get_foldl_put {β : Type} (f : β → Fin n) (x : α) (l : List β) (v : Vector α n) (j : Fin n) :
    (j ∈ l.map f → (l.foldl (fun v b => v.put (f b) x) v).get j = x) ∧
      (j ∉ l.map f → (l.foldl (fun v b => v.put (f b) x) v).get j = v.get j) := by
  induction l generalizing v with
  | nil => simp
  | cons b l ih =>
    rw [List.foldl_cons, List.map_cons, List.mem_cons]
    obtain ⟨hin, hout⟩ := ih (v.put (f b) x)
    rw [get_put] at hout
    by_cases hl : j ∈ l.map f
    · exact ⟨fun _ => hin hl, fun hno => absurd (.inr hl) hno⟩
    · rw [hout hl]
      by_cases hj : j = f b
      · exact ⟨fun _ => if_pos hj, fun hno => absurd (.inl hj) hno⟩
      · exact ⟨fun hor => absurd hor (not_or.mpr ⟨hj, hl⟩), fun _ => if_neg hj⟩

theorem length_flatMap_put {β : Type} (f : α → List β) (v : Vector α n) (i : Fin n) (x : α) :
    ((v.put i x).toList.flatMap f).length + (f (v.get i)).length = (v.toList.flatMap f).length + (f x).length := by
  have hlist : ∀ (l : List α) (k : Nat) (hk : k < l.length),
      ((l.set k x).flatMap f).length + (f l[k]).length = (l.flatMap f).length + (f x).length := by
    intro l
    induction l with
    | nil => exact fun k hk => absurd hk (Nat.not_lt_zero k)
    | cons a l ih =>
      intro k hk
      cases k with
      | zero =>
        simp only [List.set_cons_zero, List.flatMap_cons, List.length_append, List.getElem_cons_zero]
        omega
      | succ k =>
        have := ih k (Nat.lt_of_succ_lt_succ hk)
        simp only [List.set_cons_succ, List.flatMap_cons, List.length_append, List.getElem_cons_succ]
        omega
  exact hlist v.toList i (by simp)

theorem toList_eq_map_get (v : Vector α n) : v.toList = (List.finRange n).map v.get :=
  List.ext_getElem (by simp) fun i _ _ => by simp [Vector.get]

theorem toArray_eq_ofFn (v : Vector α n) : v.toArray = Array.ofFn v.get :=
  Array.ext (by simp) fun i _ _ => by simp [Vector.get]

end Vector
