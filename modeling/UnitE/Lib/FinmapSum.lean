import Mathlib.Algebra.BigOperators.Group.Multiset.Basic
import Mathlib.Data.Finmap

/-! Sums over the entries of a `Finmap` into a commutative group, and how they change when
an entry is inserted, replaced or erased. A running total kept next to a map is checked
against such a sum. -/

namespace Finmap

variable {α : Type*} {β : α → Type*} [DecidableEq α] {M : Type*} [AddCommGroup M]

/-- The sum of `f` over the entries of `m`. -/
def sumBy (m : Finmap β) (f : (a : α) → β a → M) : M :=
  (m.entries.map fun e => f e.1 e.2).sum

variable {m : Finmap β} {f g : (a : α) → β a → M}

omit [DecidableEq α] in
@[simp] theorem sumBy_empty : (∅ : Finmap β).sumBy f = 0 :=
  rfl

theorem sumBy_insert_of_notMem {a : α} (b : β a) (h : a ∉ m) :
    (m.insert a b).sumBy f = m.sumBy f + f a b := by
  rw [sumBy, entries_insert_of_notMem h, Multiset.map_cons, Multiset.sum_cons, add_comm]
  rfl

theorem insert_erase_of_lookup {a : α} {b : β a} (h : m.lookup a = some b) :
    (m.erase a).insert a b = m := by
  refine ext_lookup fun x => ?_
  by_cases hx : x = a
  · subst hx
    rw [lookup_insert, h]
  · rw [lookup_insert_of_ne _ hx, lookup_erase_ne hx]

theorem sumBy_of_lookup {a : α} {b : β a} (h : m.lookup a = some b) :
    m.sumBy f = (m.erase a).sumBy f + f a b := by
  conv_lhs => rw [← insert_erase_of_lookup h]
  exact sumBy_insert_of_notMem b notMem_erase_self

theorem sumBy_erase_of_lookup {a : α} {b : β a} (h : m.lookup a = some b) :
    (m.erase a).sumBy f = m.sumBy f - f a b := by
  rw [sumBy_of_lookup h, add_sub_cancel_right]

theorem sumBy_insert_of_lookup {a : α} {b₀ : β a} (b : β a) (h : m.lookup a = some b₀) :
    (m.insert a b).sumBy f = m.sumBy f - f a b₀ + f a b := by
  have herase : (m.insert a b).erase a = m.erase a := by
    refine ext_lookup fun x => ?_
    by_cases hx : x = a
    · subst hx
      rw [lookup_erase, lookup_erase]
    · rw [lookup_erase_ne hx, lookup_erase_ne hx, lookup_insert_of_ne _ hx]
  rw [sumBy_of_lookup (lookup_insert m), herase, sumBy_erase_of_lookup h]

theorem sumBy_congr (h : ∀ a b, m.lookup a = some b → f a b = g a b) : m.sumBy f = m.sumBy g := by
  refine congrArg Multiset.sum (Multiset.map_congr rfl fun e he => ?_)
  exact h e.1 e.2 (lookup_eq_some_iff.mpr he)

omit [DecidableEq α] in
theorem sumBy_add : m.sumBy (fun a b => f a b + g a b) = m.sumBy f + m.sumBy g := by
  simp [sumBy, Multiset.sum_map_add]

omit [DecidableEq α] in
theorem sumBy_sub : m.sumBy (fun a b => f a b - g a b) = m.sumBy f - m.sumBy g := by
  simp [sumBy, Multiset.sum_map_sub]

theorem sumBy_eq_zero (h : ∀ a b, m.lookup a = some b → f a b = 0) : m.sumBy f = 0 := by
  rw [sumBy_congr h]
  simp [sumBy]

end Finmap
