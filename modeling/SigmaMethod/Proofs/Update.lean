import SigmaMethod.Proofs.Outcome

/-!
# Running commands

What the steps of a command do to the state they start from, and how `result` reads the outcome of a command as an
outcome of its state.
-/

namespace SigmaMethod

namespace Update

variable {σ α β : Type} {u : Update σ α} {s t : σ}

@[simp] theorem apply_pure (a : α) (s : σ) : (pure a : Update σ α).apply s = (.ok a, s) := rfl

@[simp] theorem apply_get (s : σ) : (get : Update σ σ).apply s = (.ok s, s) := rfl

@[simp] theorem apply_set (t s : σ) : (set t : Update σ PUnit).apply s = (.ok ⟨⟩, t) := rfl

@[simp] theorem apply_modify (f : σ → σ) (s : σ) : (modify f : Update σ PUnit).apply s = (.ok ⟨⟩, f s) := rfl

@[simp] theorem apply_throw (e : Failure) (s : σ) : (throw e : Update σ α).apply s = (.error e, s) := rfl

@[simp] theorem apply_liftM (x : Outcome α) (s : σ) : (liftM x : Update σ α).apply s = (x, s) := rfl

theorem apply_bind (u : Update σ α) (f : α → Update σ β) (s : σ) :
    (u >>= f).apply s = match u.apply s with
      | (.ok a, t) => (f a).apply t
      | (.error e, t) => (.error e, t) := by
  change ((u.run >>= ExceptT.bindCont f : StateM σ _).run s) = _
  rw [StateT.run_bind]
  unfold apply
  rcases u.run.run s with ⟨_ | _, t⟩ <;> rfl

@[simp] theorem apply_get_bind (f : σ → Update σ β) (s : σ) : (get >>= f).apply s = (f s).apply s := rfl

@[simp] theorem apply_throw_bind (e : Failure) (f : α → Update σ β) (s : σ) :
    ((throw e : Update σ α) >>= f).apply s = (.error e, s) := rfl

@[simp] theorem apply_liftM_bind (x : Outcome α) (f : α → Update σ β) (s : σ) :
    ((liftM x : Update σ α) >>= f).apply s = match x with
      | .ok a => (f a).apply s
      | .error e => (.error e, s) := by
  rw [apply_bind]
  cases x <;> rfl

theorem apply_getThe_bind (f : σ → Update σ β) (s : σ) : (getThe σ >>= f).apply s = (f s).apply s := rfl

theorem liftM_bind_eq_ok_iff {x : Outcome α} {f : α → Update σ β} {b : β} :
    (((liftM x : Update σ α) >>= f).apply s).1 = .ok b ↔ ∃ a, x = .ok a ∧ ((f a).apply s).1 = .ok b := by
  rw [apply_liftM_bind]
  cases x <;> simp

theorem liftM_bind_leaves {x : Outcome α} {f : α → Update σ β} {inv : σ → Prop} (hs : inv s)
    (h : ∀ a, x = .ok a → inv ((f a).apply s).2) : inv (((liftM x : Update σ α) >>= f).apply s).2 := by
  rw [apply_liftM_bind]
  cases x with
  | ok a => exact h a rfl
  | error e => exact hs

/-! ## Results -/

theorem result_eq_ok_iff : u.result s = .ok t ↔ ∃ a, u.apply s = (.ok a, t) := by
  unfold result
  rcases u.apply s with ⟨_ | _, _⟩ <;> simp

@[simp] theorem result_pure (a : α) (s : σ) : (pure a : Update σ α).result s = .ok s := rfl

@[simp] theorem result_set (t s : σ) : (set t : Update σ PUnit).result s = .ok t := rfl

@[simp] theorem result_modify (f : σ → σ) (s : σ) : (modify f : Update σ PUnit).result s = .ok (f s) := rfl

@[simp] theorem result_throw (e : Failure) (s : σ) : (throw e : Update σ α).result s = .error e := rfl

@[simp] theorem result_get_bind (f : σ → Update σ β) (s : σ) : (get >>= f).result s = (f s).result s := rfl

@[simp] theorem result_liftM_bind (x : Outcome α) (f : α → Update σ β) (s : σ) :
    ((liftM x : Update σ α) >>= f).result s = x >>= fun a => (f a).result s := by
  unfold result
  rw [apply_liftM_bind]
  cases x <;> rfl

theorem result_bind_const (u : Update σ α) (v : Update σ β) (s : σ) :
    (u >>= fun _ => v).result s = u.result s >>= fun t => v.result t := by
  unfold result
  rw [apply_bind]
  rcases u.apply s with ⟨_ | _, t⟩ <;> rfl

theorem result_forM (l : List α) (f : α → Update σ PUnit) (s : σ) :
    (l.forM f).result s = l.foldlM (fun t a => (f a).result t) s := by
  induction l generalizing s with
  | nil => rfl
  | cons a l ih =>
    rw [List.forM_eq_forM, List.forM_cons, result_bind_const, List.foldlM_cons]
    exact congrArg _ (funext fun t => ih t)

end Update

end SigmaMethod
