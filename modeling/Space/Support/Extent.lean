import Mathlib.Data.List.Basic
import Mathlib.Tactic.Common

/-!
# Support — Extent

A file as a list of bytes: the extent of `n` bytes at an offset (`slice`), and a write at an
offset (`writeAt`), which fills a gap past the end and leaves every extent it does not overlap as
it was.  `chunks n l` cuts `l` into pieces of `n`, the last one possibly shorter.
-/

namespace Support
variable {α : Type}

/-! ### Extents -/

/-- The `n` elements of `l` from offset `o`, or as many as there are. -/
def slice (l : List α) (o n : Nat) : List α := (l.drop o).take n

theorem length_slice {l : List α} {o n : Nat} (h : o + n ≤ l.length) :
    (slice l o n).length = n := by
  simp only [slice, List.length_take, List.length_drop]; omega

@[simp] theorem slice_zero (l : List α) (o : Nat) : slice l o 0 = [] := by simp [slice]

/-- An extent of a file is an extent of every file it is a prefix of. -/
theorem slice_append_left {l l' : List α} {o n : Nat} (h : o + n ≤ l.length) :
    slice (l ++ l') o n = slice l o n := by
  unfold slice
  rw [List.drop_append_of_le_length (by omega), List.take_append_of_le_length (by simp; omega)]

theorem slice_append_right (l d : List α) : slice (l ++ d) l.length d.length = d := by
  simp [slice]

theorem slice_append_middle (l d r : List α) : slice (l ++ d ++ r) l.length d.length = d := by
  rw [List.append_assoc, slice, List.drop_left, List.take_left]

/-- Two lists with the same elements at the offsets of an extent have the same extent. -/
theorem slice_congr {l l' : List α} {o n : Nat}
    (h : ∀ i, o ≤ i → i < o + n → l[i]? = l'[i]?) : slice l o n = slice l' o n := by
  refine List.ext_getElem? fun i => ?_
  simp only [slice, List.getElem?_take, List.getElem?_drop]
  split
  · exact h _ (by omega) (by omega)
  · rfl

/-! ### Writes -/

/-- Write `d` at offset `o`, filling with `z` up to `o`.  Writing nothing does nothing. -/
def writeAt (z : α) (l : List α) (o : Nat) (d : List α) : List α :=
  if d = [] then l
  else l.take o ++ List.replicate (o - l.length) z ++ d ++ l.drop (o + d.length)

@[simp] theorem writeAt_nil (z : α) (l : List α) (o : Nat) : writeAt z l o [] = l := by
  simp [writeAt]

theorem writeAt_end (z : α) (l d : List α) : writeAt z l l.length d = l ++ d := by
  by_cases h : d = []
  · simp [h]
  · simp [writeAt, h]

theorem writeAt_zero (z : α) (l d : List α) : writeAt z l 0 d = d ++ l.drop d.length := by
  by_cases h : d = []
  · simp [h]
  · simp [writeAt, h]

theorem length_writeAt {z : α} {l : List α} {o : Nat} {d : List α} (h : d ≠ []) :
    (writeAt z l o d).length = max l.length (o + d.length) := by
  simp only [writeAt, h, if_false, List.length_append, List.length_take, List.length_replicate,
    List.length_drop]
  omega

theorem length_le_writeAt (z : α) (l : List α) (o : Nat) (d : List α) :
    l.length ≤ (writeAt z l o d).length := by
  by_cases h : d = []
  · simp [h]
  · rw [length_writeAt h]; exact Nat.le_max_left _ _

theorem end_le_writeAt {z : α} {l : List α} {o : Nat} {d : List α} (h : d ≠ []) :
    o + d.length ≤ (writeAt z l o d).length := by
  rw [length_writeAt h]; exact Nat.le_max_right _ _

/-- What is read back where it was written. -/
theorem slice_writeAt_self (z : α) (l : List α) (o : Nat) (d : List α) :
    slice (writeAt z l o d) o d.length = d := by
  by_cases h : d = []
  · simp [h]
  · have hl : (l.take o ++ List.replicate (o - l.length) z).length = o := by simp; omega
    have hs := slice_append_middle (l.take o ++ List.replicate (o - l.length) z) d
      (l.drop (o + d.length))
    rw [hl] at hs
    rwa [writeAt, if_neg h]

theorem getElem?_writeAt_of_lt {z : α} {l : List α} {o : Nat} {d : List α} {i : Nat}
    (hi : i < o) (hl : i < l.length) : (writeAt z l o d)[i]? = l[i]? := by
  by_cases h : d = []
  · simp [h]
  · rw [writeAt, if_neg h, List.append_assoc, List.append_assoc,
      List.getElem?_append_left (by simp; omega), List.getElem?_take, if_pos hi]

theorem getElem?_writeAt_of_ge {z : α} {l : List α} {o : Nat} {d : List α} {i : Nat}
    (hi : o + d.length ≤ i) : (writeAt z l o d)[i]? = l[i]? := by
  by_cases h : d = []
  · simp [h]
  · have hlen : (l.take o ++ List.replicate (o - l.length) z ++ d).length = o + d.length := by
      simp; omega
    rw [writeAt, if_neg h, List.getElem?_append_right (by omega), hlen, List.getElem?_drop]
    congr 1; omega

/-- **A write leaves the extents it does not overlap as they were.** -/
theorem slice_writeAt_disjoint {z : α} {l : List α} {o : Nat} {d : List α} {o' n : Nat}
    (hl : o' + n ≤ l.length) (hd : o' + n ≤ o ∨ o + d.length ≤ o') :
    slice (writeAt z l o d) o' n = slice l o' n := by
  refine slice_congr fun i h₁ h₂ => ?_
  rcases hd with hd | hd
  · exact getElem?_writeAt_of_lt (by omega) (by omega)
  · exact getElem?_writeAt_of_ge (by omega)

/-! ### Writes at the beginning -/

theorem getElem?_writeAt_zero (z : α) (l d : List α) (i : Nat) :
    (writeAt z l 0 d)[i]? = if i < d.length then d[i]? else l[i]? := by
  rw [writeAt_zero]
  split
  · next hi => exact List.getElem?_append_left hi
  · next hi =>
      rw [List.getElem?_append_right (by omega), List.getElem?_drop]
      congr 1; omega

/-- Where `d`, put at the beginning, meets the extent of `n` at `o`, it is what is there. -/
def Overlays (d l : List α) (o n : Nat) : Prop :=
  ∀ i < d.length, o ≤ i → i < o + n → l[i]? = d[i]?

instance [DecidableEq α] (d l : List α) (o n : Nat) : Decidable (Overlays d l o n) :=
  inferInstanceAs (Decidable (∀ i < d.length, o ≤ i → i < o + n → l[i]? = d[i]?))

namespace Overlays
variable {z : α} {l d d' : List α} {o n : Nat}

/-- **The extent is as it was.** -/
theorem slice_writeAt (h : Overlays d l o n) : slice (writeAt z l 0 d) o n = slice l o n := by
  refine slice_congr fun i h₁ h₂ => ?_
  rw [getElem?_writeAt_zero]
  split
  · next hi => exact (h i hi h₁ h₂).symm
  · rfl

/-- Two that leave an extent as it is, one after the other. -/
theorem after (h : Overlays d l o n) (h' : Overlays d' l o n) :
    Overlays d' (writeAt z l 0 d) o n := by
  intro i hi h₁ h₂
  rw [getElem?_writeAt_zero]
  split
  · next hd => exact (h i hd h₁ h₂).symm.trans (h' i hi h₁ h₂)
  · exact h' i hi h₁ h₂

/-- What was put there is an extent, too. -/
theorem written (h : Overlays d' d 0 d.length) :
    Overlays d' (writeAt z l 0 d) 0 d.length := by
  intro i hi h₁ h₂
  rw [getElem?_writeAt_zero, if_pos (by omega)]
  exact h i hi h₁ h₂

end Overlays

/-! ### Chunks -/

/-- `chunks` with a bound on the number of pieces. -/
def chunksUpTo (n : Nat) : Nat → List α → List (List α)
  | 0, _ => []
  | _ + 1, [] => []
  | k + 1, a :: l => (a :: l).take n :: chunksUpTo n k ((a :: l).drop n)

/-- Consecutive pieces of `n` elements; the last one may be shorter. -/
def chunks (n : Nat) (l : List α) : List (List α) := chunksUpTo n l.length l

@[simp] theorem chunks_nil (n : Nat) : chunks n ([] : List α) = [] := rfl

theorem chunksUpTo_flatten {n : Nat} (hn : 0 < n) :
    ∀ (k : Nat) (l : List α), l.length ≤ k → (chunksUpTo n k l).flatten = l
  | 0, l, h => by simp [chunksUpTo, List.length_eq_zero_iff.mp (Nat.le_zero.mp h)]
  | _ + 1, [], _ => rfl
  | k + 1, a :: l, h => by
      rw [chunksUpTo, List.flatten_cons,
        chunksUpTo_flatten hn k _ (by simp only [List.length_drop, List.length_cons] at h ⊢; omega),
        List.take_append_drop]

/-- The pieces, put back together. -/
theorem chunks_flatten {n : Nat} (hn : 0 < n) (l : List α) : (chunks n l).flatten = l :=
  chunksUpTo_flatten hn _ l (Nat.le_refl _)

theorem chunksUpTo_mem {n : Nat} (hn : 0 < n) :
    ∀ (k : Nat) (l c : List α), c ∈ chunksUpTo n k l → c ≠ [] ∧ c.length ≤ n
  | 0, _, _, h => by simp [chunksUpTo] at h
  | _ + 1, [], _, h => by simp [chunksUpTo] at h
  | k + 1, a :: l, c, h => by
      rcases List.mem_cons.mp h with rfl | h
      · refine ⟨?_, List.length_take_le _ _⟩
        cases n with
        | zero => omega
        | succ n => simp
      · exact chunksUpTo_mem hn k _ c h

/-- No piece is empty, and none is longer than `n`. -/
theorem chunks_mem {n : Nat} (hn : 0 < n) {l c : List α} (h : c ∈ chunks n l) :
    c ≠ [] ∧ c.length ≤ n := chunksUpTo_mem hn _ l c h

/-- A list that fits in one piece. -/
theorem chunks_of_length_le {n : Nat} {l : List α} (hl : l ≠ []) (h : l.length ≤ n) :
    chunks n l = [l] := by
  obtain ⟨a, l, rfl⟩ := List.exists_cons_of_ne_nil hl
  rw [chunks, List.length_cons, chunksUpTo, List.take_of_length_le h,
    List.drop_of_length_le h]
  cases l.length <;> rfl

/-- A bound on the number of pieces that is large enough does not matter. -/
theorem chunksUpTo_eq {n : Nat} (hn : 0 < n) :
    ∀ (k : Nat) (l : List α), l.length ≤ k → chunksUpTo n k l = chunks n l
  | k, [], _ => by cases k <;> rfl
  | k + 1, a :: l, h => by
      have hd : ((a :: l).drop n).length ≤ l.length := by
        rw [List.length_drop, List.length_cons]
        omega
      have hl : l.length ≤ k := Nat.le_of_succ_le_succ h
      rw [chunks, List.length_cons, chunksUpTo, chunksUpTo,
        chunksUpTo_eq hn k _ (Nat.le_trans hd hl), chunksUpTo_eq hn l.length _ hd]

/-- The first piece, and the others. -/
theorem chunks_append {n : Nat} {l l' : List α} (hl : l ≠ []) (h : l.length = n) :
    chunks n (l ++ l') = l :: chunks n l' := by
  have hn : 0 < n := h ▸ List.length_pos_iff.mpr hl
  obtain ⟨a, t, rfl⟩ := List.exists_cons_of_ne_nil hl
  rw [chunks, List.cons_append, List.length_cons, chunksUpTo, ← List.cons_append,
    List.take_left' h, List.drop_left' h, chunksUpTo_eq hn]
  rw [List.length_append]
  omega

theorem forall_chunk_of_length_le {n : Nat} {l : List α} {p : List α → Prop} (h : l.length ≤ n)
    (hp : p l) : ∀ c ∈ chunks n l, p c := by
  intro c hc
  by_cases hl : l = []
  · subst hl; cases hc
  · rw [chunks_of_length_le hl h, List.mem_singleton] at hc
    exact hc ▸ hp

end Support
