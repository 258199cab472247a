import Mathlib.Logic.Basic

/-! Inversion rules for computations in `Except`: a successful bind or map came from a
successful first computation. Proofs about a model written in `Except` peel it apart
with these instead of unfolding `bind`. -/

namespace Except

variable {ε α β : Type}

theorem bind_eq_ok {x : Except ε α} {f : α → Except ε β} {b : β} :
    (x >>= f) = .ok b ↔ ∃ a, x = .ok a ∧ f a = .ok b := by
  cases x with
  | error e => simp [bind, Except.bind]
  | ok a => simp [bind, Except.bind]

theorem map_eq_ok {x : Except ε α} {f : α → β} {b : β} :
    (f <$> x) = .ok b ↔ ∃ a, x = .ok a ∧ f a = b := by
  cases x with
  | error e => simp [Functor.map, Except.map]
  | ok a => simp [Functor.map, Except.map]

@[simp] theorem pure_eq_ok_self {a : α} : (pure a : Except ε α) = .ok a :=
  rfl

@[simp] theorem throw_eq_error {e : ε} : (throw e : Except ε α) = .error e :=
  rfl

@[simp] theorem ok_bind {a : α} {f : α → Except ε β} : ((Except.ok a : Except ε α) >>= f) = f a :=
  rfl

@[simp] theorem error_bind {e : ε} {f : α → Except ε β} :
    ((Except.error e : Except ε α) >>= f) = .error e :=
  rfl

/-- A check: success when `c` holds, the error `e` otherwise. -/
def guardOr (c : Bool) (e : ε) : Except ε Unit := if c then .ok () else .error e

@[simp] theorem guardOr_bind_eq_ok {c : Bool} {e : ε} {f : Unit → Except ε β} {b : β} :
    (guardOr c e >>= f) = .ok b ↔ c = true ∧ f () = .ok b := by
  cases c <;> simp [guardOr]

theorem bind_eq_error {x : Except ε α} {f : α → Except ε β} {e : ε} :
    (x >>= f) = .error e ↔ x = .error e ∨ ∃ a, x = .ok a ∧ f a = .error e := by
  cases x with
  | error e' => simp [bind, Except.bind]
  | ok a => simp [bind, Except.bind]

/-- The invariant rule of a fold: when every step from a state satisfying `P` succeeds in a
state satisfying `P`, so does the fold. -/
theorem foldlM_invariant {f : β → α → Except ε β} (P : β → Prop) :
    ∀ (l : List α), (∀ b, P b → ∀ a ∈ l, ∃ b', f b a = .ok b' ∧ P b') →
      ∀ b, P b → ∃ b', l.foldlM f b = .ok b' ∧ P b'
  | [], _, b, hb => ⟨b, rfl, hb⟩
  | a :: l, hstep, b, hb => by
    obtain ⟨b₁, hf, hb₁⟩ := hstep b hb a List.mem_cons_self
    obtain ⟨b', hfold, hb'⟩ := foldlM_invariant P l
      (fun b hb a ha => hstep b hb a (List.mem_cons_of_mem _ ha)) b₁ hb₁
    exact ⟨b', by simp [List.foldlM_cons, hf, hfold], hb'⟩

/-- The invariant rule of a fold that succeeded: when every successful step from a state
satisfying `P` ends in one satisfying `P`, so does the fold. -/
theorem foldlM_preserves {f : β → α → Except ε β} (P : β → Prop) :
    ∀ (l : List α), (∀ b, P b → ∀ a ∈ l, ∀ b', f b a = .ok b' → P b') →
      ∀ b b', P b → l.foldlM f b = .ok b' → P b'
  | [], _, b, b', hb, h => Except.ok.inj h ▸ hb
  | a :: l, hstep, b, b', hb, h => by
    rw [List.foldlM_cons] at h
    obtain ⟨b₁, hf, hfold⟩ := bind_eq_ok.mp h
    exact foldlM_preserves P l (fun b hb a ha => hstep b hb a (List.mem_cons_of_mem _ ha)) b₁ b'
      (hstep b hb a List.mem_cons_self b₁ hf) hfold

/-- A fold whose every step from a state satisfying `P` succeeds with the pure step `g`, in a
state satisfying `P`, is the pure fold of `g`. -/
theorem foldlM_eq_foldl {f : β → α → Except ε β} {g : β → α → β} (P : β → Prop) :
    ∀ (l : List α), (∀ b, P b → ∀ a ∈ l, f b a = .ok (g b a) ∧ P (g b a)) →
      ∀ b, P b → l.foldlM f b = .ok (l.foldl g b) ∧ P (l.foldl g b)
  | [], _, b, hb => ⟨rfl, hb⟩
  | a :: l, hstep, b, hb => by
    obtain ⟨hf, hb₁⟩ := hstep b hb a List.mem_cons_self
    obtain ⟨hfold, hb'⟩ := foldlM_eq_foldl P l
      (fun b hb a ha => hstep b hb a (List.mem_cons_of_mem _ ha)) (g b a) hb₁
    exact ⟨by rw [List.foldlM_cons, hf, ok_bind, hfold]; rfl, hb'⟩

/-- `x` fails, if it fails at all, with an error that satisfies `p`. -/
def FailsOnly (p : ε → Prop) (x : Except ε α) : Prop := ∀ e, x = .error e → p e

namespace FailsOnly

variable {p : ε → Prop}

theorem of_eq_ok {x : Except ε α} {a : α} (h : x = .ok a) : FailsOnly p x := by
  intro e he
  rw [h] at he
  cases he

theorem of_exists_ok {x : Except ε α} (h : ∃ a, x = .ok a) : FailsOnly p x := by
  obtain ⟨a, ha⟩ := h
  exact of_eq_ok ha

theorem ok (a : α) : FailsOnly p (Except.ok a : Except ε α) := of_eq_ok rfl

theorem pure (a : α) : FailsOnly p (Pure.pure a : Except ε α) := of_eq_ok rfl

theorem error {e : ε} (h : p e) : FailsOnly p (Except.error e : Except ε α) := by
  intro e' he
  cases he
  exact h

/-- The rule of a bind: the first computation fails only so, and so does the rest after each
of its results. -/
theorem bind {x : Except ε α} {f : α → Except ε β} (hx : FailsOnly p x)
    (hf : ∀ a, x = .ok a → FailsOnly p (f a)) : FailsOnly p (x >>= f) := by
  intro e he
  rcases bind_eq_error.mp he with hxe | ⟨a, ha, hfa⟩
  · exact hx e hxe
  · exact hf a ha e hfa

theorem map {x : Except ε α} {f : α → β} (hx : FailsOnly p x) : FailsOnly p (f <$> x) := by
  intro e he
  cases x with
  | error e' =>
    cases he
    exact hx e rfl
  | ok a => cases he

end FailsOnly

end Except
