import Mathlib.Algebra.BigOperators.Finprod

/-! Sums with finitely many nonzero terms over an index type of any size, and how they move
when the summand changes at one index. A running total kept beside a map with finitely many
entries is checked against such a sum. -/

open Function

variable {α M : Type*} [AddCommGroup M] {f g : α → M} {a : α}

theorem finsum_eq_add_sub_of_update (hf : HasFiniteSupport f) (h : ∀ x, x ≠ a → g x = f x) :
    ∑ᶠ x, g x = ∑ᶠ x, f x + (g a - f a) := by
  have hdiff : ∑ᶠ x, (g x - f x) = g a - f a :=
    finsum_eq_single _ a fun x hx => by rw [h x hx, sub_self]
  have hfin : HasFiniteSupport fun x => g x - f x :=
    (Set.finite_singleton a).subset fun x hx => by
      by_contra hxa
      exact hx (by simp only [h x hxa, sub_self])
  calc ∑ᶠ x, g x = ∑ᶠ x, (f x + (g x - f x)) := by simp
    _ = ∑ᶠ x, f x + ∑ᶠ x, (g x - f x) := finsum_add_distrib hf hfin
    _ = ∑ᶠ x, f x + (g a - f a) := by rw [hdiff]
