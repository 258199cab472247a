import Mathlib.Data.List.Basic

/-! A scan of a sorted list from a lower bound, as `std::map::lower_bound` followed by a loop
to the end. Dropping the prefix below the bound leaves exactly the elements at or above it when
the list is sorted: an element below the bound has only elements below it before it. -/

namespace List

variable {α : Type*} {p q : α → Bool} {l : List α} {x : α}

/-- On a list where `p` holds downwards, `dropWhile p` keeps exactly the elements where `p`
fails. -/
theorem mem_dropWhile_iff_of_pairwise (hl : l.Pairwise fun a b => p b = true → p a = true) :
    x ∈ l.dropWhile p ↔ x ∈ l ∧ p x = false := by
  induction l with
  | nil => simp
  | cons a l ih =>
    obtain ⟨ha, hl⟩ := List.pairwise_cons.mp hl
    by_cases hpa : p a = true
    · rw [List.dropWhile_cons_of_pos hpa, ih hl, List.mem_cons]
      constructor
      · exact fun ⟨hx, hpx⟩ => ⟨.inr hx, hpx⟩
      · rintro ⟨rfl | hx, hpx⟩
        · rw [hpa] at hpx
          cases hpx
        · exact ⟨hx, hpx⟩
    · rw [List.dropWhile_cons_of_neg hpa]
      refine ⟨fun hx => ⟨hx, ?_⟩, fun h => h.1⟩
      -- what follows `a` fails `p` too, since `p` would hold of `a` otherwise
      rcases List.mem_cons.mp hx with rfl | hx
      · simpa using hpa
      · exact Bool.eq_false_iff.mpr fun hpx => hpa (ha x hx hpx)

/-- The scan from the bound finds an element satisfying `q` exactly when some element at or
above the bound satisfies it. -/
theorem find?_dropWhile_isSome_iff (hl : l.Pairwise fun a b => p b = true → p a = true) :
    ((l.dropWhile p).find? q).isSome ↔ ∃ x ∈ l, p x = false ∧ q x = true := by
  rw [List.find?_isSome]
  constructor
  · rintro ⟨x, hx, hqx⟩
    obtain ⟨hx, hpx⟩ := (mem_dropWhile_iff_of_pairwise hl).mp hx
    exact ⟨x, hx, hpx, hqx⟩
  · rintro ⟨x, hx, hpx, hqx⟩
    exact ⟨x, (mem_dropWhile_iff_of_pairwise hl).mpr ⟨hx, hpx⟩, hqx⟩

theorem find?_dropWhile_eq_some (hl : l.Pairwise fun a b => p b = true → p a = true)
    (h : (l.dropWhile p).find? q = some x) : x ∈ l ∧ p x = false ∧ q x = true := by
  obtain ⟨hx, hpx⟩ := (mem_dropWhile_iff_of_pairwise hl).mp (List.mem_of_find?_eq_some h)
  exact ⟨hx, hpx, List.find?_some h⟩

end List
