import Mathlib.Data.List.Basic

/-! A record format of a byte stream: what writing a record appends, and reading one off the
front of the bytes. Reading undoes writing, and every record takes at least one byte, so the
records written one after another are read back one by one from their bytes, and skipping the
bytes of the first `k` records leaves the bytes of the others. -/

/-- A record format: `ser` writes a record, `deser` reads one off the front of the bytes and
returns the bytes after it, or fails. -/
structure ByteCodec (α : Type) where
  ser : α → List UInt8
  deser : List UInt8 → Option (α × List UInt8)
  deser_ser : ∀ x rest, deser (ser x ++ rest) = some (x, rest)
  ser_ne_nil : ∀ x, ser x ≠ []

namespace ByteCodec

variable {α : Type} (c : ByteCodec α)

/-- The bytes of records written one after another. -/
def serList (l : List α) : List UInt8 := l.flatMap c.ser

@[simp] theorem serList_nil : c.serList [] = [] := rfl

@[simp] theorem serList_cons (x : α) (l : List α) : c.serList (x :: l) = c.ser x ++ c.serList l :=
  List.flatMap_cons

@[simp] theorem serList_append (l₁ l₂ : List α) :
    c.serList (l₁ ++ l₂) = c.serList l₁ ++ c.serList l₂ :=
  List.flatMap_append

theorem serList_eq_nil_iff {l : List α} : c.serList l = [] ↔ l = [] := by
  cases l with
  | nil => simp
  | cons x l => simp [c.ser_ne_nil x]

theorem deser_serList_cons (x : α) (l : List α) (rest : List UInt8) :
    c.deser (c.serList (x :: l) ++ rest) = some (x, c.serList l ++ rest) := by
  rw [serList_cons, List.append_assoc, c.deser_ser]

theorem length_serList_take_le (l : List α) (k : Nat) :
    (c.serList (l.take k)).length ≤ (c.serList l).length := by
  conv_rhs => rw [← List.take_append_drop k l, serList_append, List.length_append]
  exact Nat.le_add_right _ _

theorem length_serList_le (l : List α) (b : Nat) (h : ∀ x ∈ l, (c.ser x).length ≤ b) :
    (c.serList l).length ≤ l.length * b := by
  induction l with
  | nil => simp
  | cons x l ih =>
    rw [serList_cons, List.length_append, List.length_cons, Nat.succ_mul]
    have hx := h x List.mem_cons_self
    have hl := ih fun y hy => h y (List.mem_cons_of_mem x hy)
    omega

theorem drop_serList_take (l : List α) (k : Nat) :
    (c.serList l).drop (c.serList (l.take k)).length = c.serList (l.drop k) := by
  have hsplit := congrArg c.serList (List.take_append_drop k l)
  rw [serList_append] at hsplit
  rw [← hsplit, List.drop_left]

section Unary

variable (f : α → Nat) (hf : Function.Injective f)

end Unary

end ByteCodec
