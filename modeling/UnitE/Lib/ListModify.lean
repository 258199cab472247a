import Mathlib.Logic.Function.Basic

/-! Changing a list at one position at a time. Changes by functions that commute with each
other can be made in any order, whatever positions they are at; and a position-wise operation
of two lists passes a change of its right operand through to the result. -/

namespace List

variable {α β γ : Type*}

theorem set_eq_modify_of_getElem?_eq {l : List α} {i : Nat} {a : α} (h : l[i]? = some a) (f : α → α) :
    l.set i (f a) = l.modify i f := by
  obtain ⟨hi, rfl⟩ := getElem?_eq_some_iff.1 h
  apply ext_getElem
  · simp
  · intro j h₁ h₂
    simp only [getElem_set, getElem_modify]
    split
    · next hij =>
      subst hij
      rfl
    · rfl

theorem modify_modify_comm {f g : α → α} (hfg : ∀ a, f (g a) = g (f a)) (l : List α) (i j : Nat) :
    (l.modify i f).modify j g = (l.modify j g).modify i f := by
  by_cases hij : i = j
  · subst hij
    rw [modify_modify_eq, modify_modify_eq]
    congr 1
    funext a
    exact (hfg a).symm
  · exact modify_modify_ne f g l hij

/-- A position-wise operation with a changed right operand is the changed operation, when the
change passes through it. -/
theorem zipWith_modify_right {g : α → β → γ} {f : β → β} {f' : γ → γ}
    (hpass : ∀ a b, g a (f b) = f' (g a b)) (l : List α) (l' : List β) (i : Nat) :
    zipWith g l (l'.modify i f) = (zipWith g l l').modify i f' := by
  apply ext_getElem
  · simp
  · intro j h₁ h₂
    simp only [getElem_zipWith, getElem_modify]
    split <;> simp [hpass]

theorem foldl_modify_range_replicate (f : α → α) (x : α) {k n : Nat} (hk : k ≤ n) :
    (range k).foldl (fun l i => l.modify i f) (replicate n x) =
      replicate k (f x) ++ replicate (n - k) x := by
  induction k with
  | zero => simp
  | succ k ih =>
    rw [range_succ, foldl_append, ih (by omega), foldl_cons, foldl_nil,
      show n - k = (n - (k + 1)) + 1 by omega, replicate_succ,
      modify_eq_take_cons_drop (by simp)]
    simp [replicate_succ', drop_append]

end List
