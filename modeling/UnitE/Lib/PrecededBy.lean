import Mathlib.Data.List.Basic

/-! Order in a trace: every event of one kind comes after some event of another. The property
survives appending a trace with no event of the first kind, or any trace once an event of the
second kind has happened, and renaming the events along a map. -/

namespace List

variable {α β : Type*}

/-- Every element of `l` that satisfies `q` has an element that satisfies `p` before it. -/
def PrecededBy (p q : α → Prop) (l : List α) : Prop :=
  ∀ pre x post, l = pre ++ x :: post → q x → ∃ y ∈ pre, p y

variable {p q : α → Prop} {l l₁ l₂ : List α}

theorem PrecededBy.of_forall_not (h : ∀ x ∈ l, ¬q x) : PrecededBy p q l := by
  intro pre x post hl hx
  exact absurd hx (h x (by simp [hl]))

theorem PrecededBy.nil : PrecededBy p q ([] : List α) :=
  PrecededBy.of_forall_not (by simp)

/-- A trace stays ordered after more events, when those are ordered or when the first part has
an event of the second kind. -/
theorem PrecededBy.append (h₁ : PrecededBy p q l₁) (h₂ : (∃ y ∈ l₁, p y) ∨ PrecededBy p q l₂) :
    PrecededBy p q (l₁ ++ l₂) := by
  intro pre x post hl hx
  rcases List.append_eq_append_iff.1 hl with ⟨a', rfl, hl₂⟩ | ⟨c', hl₁, hc⟩
  · -- `x` is in the second part
    rcases h₂ with ⟨y, hy, hpy⟩ | h₂
    · exact ⟨y, List.mem_append_left _ hy, hpy⟩
    · obtain ⟨y, hy, hpy⟩ := h₂ a' x post hl₂ hx
      exact ⟨y, List.mem_append_right _ hy, hpy⟩
  · -- `x` is in the first part, or starts the second
    rcases c' with _ | ⟨c, c''⟩
    · rw [List.append_nil] at hl₁
      subst hl₁
      rcases h₂ with ⟨y, hy, hpy⟩ | h₂
      · exact ⟨y, hy, hpy⟩
      · obtain ⟨y, hy, hpy⟩ := h₂ [] x post hc.symm hx
        cases hy
    · simp only [List.cons_append, List.cons.injEq] at hc
      obtain ⟨rfl, -⟩ := hc
      exact h₁ pre x c'' hl₁ hx

theorem PrecededBy.map {p' q' : β → Prop} (f : α → β) (hq : ∀ x, q' (f x) → q x)
    (hp : ∀ y, p y → p' (f y)) (h : PrecededBy p q l) : PrecededBy p' q' (l.map f) := by
  intro pre x post hl hx
  obtain ⟨pre', rest, rfl, hpre, hrest⟩ := List.map_eq_append_iff.1 hl
  obtain ⟨x', post', rfl, rfl, -⟩ := List.map_eq_cons_iff.1 hrest
  obtain ⟨y, hy, hpy⟩ := h pre' x' post' rfl (hq x' hx)
  exact ⟨f y, hpre ▸ List.mem_map_of_mem hy, hp y hpy⟩

end List
