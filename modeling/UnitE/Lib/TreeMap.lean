import Mathlib.Data.List.Basic

/-! A tree map lists its entries in key order, so a key above every key present is listed
last: inserting keys in increasing order builds the list of the insertions. -/

namespace List

theorem Pairwise.rel_of_mem_zip_tail {α : Type} {R : α → α → Prop} :
    ∀ {l : List α}, l.Pairwise R → ∀ {p : α × α}, p ∈ l.zip l.tail → R p.1 p.2
  | [], _, _, hp => by simp at hp
  | [_], _, _, hp => by simp at hp
  | a :: b :: l, hl, p, hp => by
    rw [List.tail_cons, List.zip_cons_cons, List.mem_cons] at hp
    rcases hp with rfl | hp
    · exact List.rel_of_pairwise_cons hl List.mem_cons_self
    · exact Pairwise.rel_of_mem_zip_tail hl.of_cons hp

end List

namespace Std.TreeMap

variable {α β : Type} {cmp : α → α → Ordering} (t : TreeMap α β cmp)

theorem toList_eq_nil_iff : t.toList = [] ↔ t.isEmpty = true := by
  rw [← List.isEmpty_iff, isEmpty_toList]

@[simp] theorem toList_emptyc : (∅ : TreeMap α β cmp).toList = [] :=
  (toList_eq_nil_iff _).mpr isEmpty_emptyc

/-- Inserting a key above every key of `A` into a map that lists `A` and then at most an entry
of that key: the entry is appended, or replaces the one there. -/
theorem toList_insert_of_keys_lt [TransCmp cmp] [BEq α] [LawfulBEqCmp cmp] {A B : List (α × β)}
    {k : α} {v : β} (h : t.toList = A ++ B) (hA : ∀ p ∈ A, cmp p.1 k = .lt)
    (hB : B = [] ∨ ∃ w, B = [(k, w)]) : (t.insert k v).toList = A ++ [(k, v)] := by
  have hkeep : A.filter (fun p => ¬k == p.1) = A := by
    rw [List.filter_eq_self]
    intro p hp
    have hne : ¬cmp k p.1 = .eq := by
      intro heq
      have hsym := OrientedCmp.eq_symm heq
      rw [hA p hp] at hsym
      cases hsym
    rw [LawfulBEqCmp.not_compare_eq_iff_beq_eq_false] at hne
    simp [hne]
  have hdrop : B.filter (fun p => ¬k == p.1) = [] := by
    rcases hB with rfl | ⟨w, rfl⟩
    · rfl
    · have hcmp : cmp k k = .eq := ReflCmp.compare_self
      have hself : (k == k) = true := LawfulBEqCmp.compare_eq_iff_beq.mp hcmp
      simp [hself]
  have hsortedA : A.Pairwise fun a b => cmp a.1 b.1 = .lt :=
    (h ▸ ordered_keys_toList : (A ++ B).Pairwise _).sublist (List.sublist_append_left A B)
  have hsorted : (A ++ [(k, v)]).Pairwise fun a b => cmp a.1 b.1 = .lt := by
    rw [List.pairwise_append]
    refine ⟨hsortedA, List.pairwise_singleton _ _, ?_⟩
    intro a ha b hb
    rw [List.mem_singleton.mp hb]
    exact hA a ha
  have hperm : (t.insert k v).toList.Perm (A ++ [(k, v)]) := by
    refine toList_insert_perm.trans ?_
    rw [h, List.filter_append, hkeep, hdrop, List.append_nil]
    exact List.perm_append_singleton _ _ |>.symm
  refine hperm.eq_of_pairwise (fun a b _ _ hab hba => ?_) ordered_keys_toList hsorted
  have hgt := OrientedCmp.gt_of_lt hab
  rw [hba] at hgt
  cases hgt

theorem toList_insert_of_lt [TransCmp cmp] [BEq α] [LawfulBEqCmp cmp] {k : α} {v : β}
    (hk : ∀ p ∈ t.toList, cmp p.1 k = .lt) :
    (t.insert k v).toList = t.toList ++ [(k, v)] :=
  t.toList_insert_of_keys_lt (List.append_nil _).symm hk (.inl rfl)

end Std.TreeMap
