import Space.Support.Extent

/-!
# Support — Tiling

Extents of a list, one behind the other without a gap (`Tiles`).  Read in order, they give the part
of the list from the first to the last (`Tiles.flatMap_slice`).
-/

namespace Support
variable {α : Type} {a b c : Nat} {l l' : List (Nat × Nat)}

/-- The extents of `l`, each an offset and a length, fill the list from `a` to `b`. -/
def Tiles : Nat → Nat → List (Nat × Nat) → Prop
  | a, b, [] => a = b
  | a, b, e :: l => e.1 = a ∧ Tiles (a + e.2) b l

namespace Tiles

theorem append (h : Tiles a b l) (h' : Tiles b c l') : Tiles a c (l ++ l') := by
  induction l generalizing a with
  | nil =>
      obtain rfl : a = b := h
      exact h'
  | cons e l ih => exact ⟨h.1, ih h.2⟩

theorem snoc (h : Tiles a b l) (n : Nat) : Tiles a (b + n) (l ++ [(b, n)]) :=
  h.append ⟨rfl, rfl⟩

theorem length_le (h : Tiles a b l) : a ≤ b := by
  induction l generalizing a with
  | nil => exact Nat.le_of_eq h
  | cons e l ih => exact Nat.le_trans (Nat.le_add_right _ _) (ih h.2)

/-- **The extents, read in order.** -/
theorem flatMap_slice {xs : List α} (h : Tiles a b l) (hb : b ≤ xs.length) :
    (l.flatMap fun e => slice xs e.1 e.2) = slice xs a (b - a) := by
  induction l generalizing a with
  | nil =>
      obtain rfl : a = b := h
      rw [Nat.sub_self, slice_zero]
      rfl
  | cons e l ih =>
      obtain ⟨o, n⟩ := e
      obtain ⟨rfl, h⟩ : o = a ∧ Tiles (a + n) b l := h
      have hle := h.length_le
      rw [List.flatMap_cons, ih h, show b - o = n + (b - (o + n)) by omega]
      unfold slice
      rw [List.take_add, List.drop_drop]

/-- Extents that fill a list. -/
theorem flatMap_slice_all {xs : List α} (h : Tiles 0 xs.length l) :
    (l.flatMap fun e => slice xs e.1 e.2) = xs := by
  rw [h.flatMap_slice (Nat.le_refl _), slice, List.drop_zero, Nat.sub_zero, List.take_length]

end Tiles

end Support
