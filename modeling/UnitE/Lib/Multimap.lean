import Mathlib

/-! An ordered multimap as the list of its entries in iteration order: sorted by key, and
entries of one key in the order they were added, which `emplace` keeps by placing a new entry
after every entry whose key is not above its own. What a reader of the multimap needs is the
order of two entries: an entry with a key at most `k` comes before an entry of key `k` added
after it, and adding entries never reorders the ones already there. -/

namespace Multimap

variable {κ α : Type*} [LinearOrder κ]

def emplace (k : κ) (a : α) : List (κ × α) → List (κ × α)
  | [] => [(k, a)]
  | x :: rest => if x.1 ≤ k then x :: emplace k a rest else (k, a) :: x :: rest

/-- The entries are sorted by key. -/
def Sorted (l : List (κ × α)) : Prop := l.Pairwise fun x y => x.1 ≤ y.1

variable {k : κ} {a : α} {l : List (κ × α)}

theorem mem_emplace {x : κ × α} : x ∈ emplace k a l ↔ x = (k, a) ∨ x ∈ l := by
  induction l with
  | nil => simp [emplace]
  | cons y rest ih =>
    simp only [emplace]
    split <;> simp [ih, or_left_comm]

theorem sublist_emplace (k : κ) (a : α) (l : List (κ × α)) : l.Sublist (emplace k a l) := by
  induction l with
  | nil => exact List.nil_sublist _
  | cons y rest ih =>
    simp only [emplace]
    split
    · exact ih.cons_cons y
    · exact List.sublist_cons_self _ _

theorem Sorted.emplace (hl : Sorted l) : Sorted (emplace k a l) := by
  induction l with
  | nil => exact List.pairwise_singleton _ _
  | cons y rest ih =>
    obtain ⟨hy, hrest⟩ := List.pairwise_cons.1 hl
    simp only [Multimap.emplace]
    split
    · next hle =>
      refine List.pairwise_cons.2 ⟨fun x hx => ?_, ih hrest⟩
      rcases mem_emplace.1 hx with rfl | hx
      · exact hle
      · exact hy x hx
    · next hlt =>
      refine List.pairwise_cons.2 ⟨fun x hx => ?_, hl⟩
      rcases List.mem_cons.1 hx with rfl | hx
      · exact (lt_of_not_ge hlt).le
      · exact (lt_of_not_ge hlt).le.trans (hy x hx)

/-- In a sorted multimap, an entry of key at most `k` comes before the entry of key `k` that
`emplace` adds. -/
theorem pair_sublist_emplace (hl : Sorted l) {x : κ × α} (hx : x ∈ l) (hxk : x.1 ≤ k) :
    [x, (k, a)].Sublist (emplace k a l) := by
  induction l with
  | nil => cases hx
  | cons y rest ih =>
    obtain ⟨hy, hrest⟩ := List.pairwise_cons.1 hl
    simp only [emplace]
    split
    · rcases List.mem_cons.1 hx with rfl | hx
      · exact List.cons_sublist_cons.2
          (List.singleton_sublist.2 (mem_emplace.2 (.inl rfl)))
      · exact (ih hrest hx).cons y
    · next hlt =>
      -- every entry is at or above `y`, whose key is above `k`
      exfalso
      rcases List.mem_cons.1 hx with rfl | hx
      · exact hlt hxk
      · exact hlt ((hy x hx).trans hxk)

theorem filter_emplace_of_false {p : κ × α → Bool} (hp : p (k, a) = false) (l : List (κ × α)) :
    (emplace k a l).filter p = l.filter p := by
  induction l with
  | nil => simp [emplace, hp]
  | cons y rest ih =>
    simp only [emplace]
    split
    · by_cases hy : p y = true <;> simp [hy, ih]
    · simp [List.filter_cons, hp]

theorem filter_emplace_of_true {p : κ × α → Bool} (hp : p (k, a) = true)
    (hl : l.filter p = []) : (emplace k a l).filter p = [(k, a)] := by
  induction l with
  | nil => simp [emplace, hp]
  | cons y rest ih =>
    have hy : p y = false := by
      cases hpy : p y with
      | false => rfl
      | true => simp [hpy] at hl
    have hrest : rest.filter p = [] := by simpa [List.filter_cons, hy] using hl
    simp only [emplace]
    split
    · simp [hy, ih hrest]
    · simp [hp, hy, hrest]

end Multimap
