import Mathlib.Data.List.Infix
import Mathlib.Tactic.Common

/-!
# Support — Paths

Lists of names written as one text, every name behind a separator.  `names` is *plain* when no
name in it contains the separator; then the text determines the names (`slashed_injective`), and
one text is another one with a separator and more after it exactly when the names of the one are
followed by further names in the other (`slashed_sep_start`).
-/

namespace Support.Paths
variable {α : Type} {sep : α}

/-- No name contains the separator. -/
def Plain (sep : α) (names : List (List α)) : Prop := ∀ n ∈ names, sep ∉ n

/-- Every name behind a separator. -/
def slashed (sep : α) (names : List (List α)) : List α := names.flatMap fun n => sep :: n

@[simp] theorem slashed_nil : slashed sep [] = [] := rfl

theorem slashed_cons (n : List α) (names : List (List α)) :
    slashed sep (n :: names) = sep :: n ++ slashed sep names := rfl

theorem slashed_append (a b : List (List α)) :
    slashed sep (a ++ b) = slashed sep a ++ slashed sep b := List.flatMap_append

theorem slashed_snoc (names : List (List α)) (n : List α) :
    slashed sep (names ++ [n]) = slashed sep names ++ sep :: n := by
  rw [slashed_append, slashed_cons, slashed_nil, List.append_nil]

/-- The separators of a joined list stand between the names. -/
theorem cons_intercalate {names : List (List α)} (h : names ≠ []) :
    sep :: [sep].intercalate names = slashed sep names := by
  induction names with
  | nil => exact absurd rfl h
  | cons n names ih =>
      cases names with
      | nil => simp [slashed_cons]
      | cons m names =>
          rw [List.intercalate_cons_cons, slashed_cons, ← ih (List.cons_ne_nil _ _)]
          simp

/-- What stands between two separators contains none, and it is a part of the text. -/
theorem mem_splitOn [DecidableEq α] {xs l : List α} (h : l ∈ xs.splitOn sep) :
    sep ∉ l ∧ ∀ x ∈ l, x ∈ xs := by
  induction xs generalizing l with
  | nil =>
      rw [List.splitOn_nil] at h
      rw [List.mem_singleton.mp h]
      exact ⟨List.not_mem_nil, fun _ hx => absurd hx List.not_mem_nil⟩
  | cons y xs ih =>
      rw [List.splitOn_cons_eq_if_modifyHead] at h
      split at h
      · rcases List.mem_cons.mp h with rfl | h
        · exact ⟨List.not_mem_nil, fun _ hx => absurd hx List.not_mem_nil⟩
        · exact ⟨(ih h).1, fun x hx => List.mem_cons_of_mem _ ((ih h).2 x hx)⟩
      · next hy =>
          have hy : y ≠ sep := fun e => hy (beq_iff_eq.mpr e)
          obtain ⟨m, ms, hm⟩ := List.exists_cons_of_ne_nil (List.splitOn_ne_nil sep xs)
          rw [hm, List.modifyHead_cons] at h
          rcases List.mem_cons.mp h with rfl | h
          · obtain ⟨hsep, hsub⟩ := ih (hm ▸ List.mem_cons_self)
            refine ⟨fun k => ?_, fun x hx => ?_⟩
            · exact (List.mem_cons.mp k).elim (fun e => hy e.symm) hsep
            · exact (List.mem_cons.mp hx).elim (fun e => e ▸ List.mem_cons_self)
                fun hx => List.mem_cons_of_mem _ (hsub x hx)
          · obtain ⟨hsep, hsub⟩ := ih (hm ▸ List.mem_cons_of_mem _ h)
            exact ⟨hsep, fun x hx => List.mem_cons_of_mem _ (hsub x hx)⟩

/-- One more element, which is no separator, is one more element of the last piece. -/
theorem splitOn_snoc [DecidableEq α] {x : α} (hne : x ≠ sep) (xs : List α) :
    ∃ ls l, xs.splitOn sep = ls ++ [l] ∧ (xs ++ [x]).splitOn sep = ls ++ [l ++ [x]] := by
  have hx : (x == sep) = false := beq_eq_false_iff_ne.mpr hne
  induction xs with
  | nil => exact ⟨[], [], by simp, by simp [List.splitOn_cons_eq_if_modifyHead, hx]⟩
  | cons y xs ih =>
      obtain ⟨ls, l, h, h'⟩ := ih
      rw [List.cons_append, List.splitOn_cons_eq_if_modifyHead, List.splitOn_cons_eq_if_modifyHead,
        h, h']
      split
      · exact ⟨[] :: ls, l, rfl, rfl⟩
      · cases ls with
        | nil => exact ⟨[], y :: l, rfl, rfl⟩
        | cons m ls => exact ⟨(y :: m) :: ls, l, rfl, rfl⟩

/-- The text begins with a separator, if there is a text. -/
theorem slashed_eq_nil_or (names : List (List α)) :
    slashed sep names = [] ∨ ∃ t, slashed sep names = sep :: t := by
  cases names with
  | nil => exact .inl rfl
  | cons n names => exact .inr ⟨_, rfl⟩

/-- Two names, each of them ended by a separator or by the end of the text. -/
theorem name_prefix {a b r t : List α} (ha : sep ∉ a) (hb : sep ∉ b)
    (ht : t = [] ∨ ∃ u, t = sep :: u) :
    a ++ sep :: r <+: b ++ t ↔ a = b ∧ sep :: r <+: t := by
  induction a generalizing b with
  | nil =>
      cases b with
      | nil => simp
      | cons y b =>
          have hy : sep ≠ y := fun e => hb (e ▸ List.mem_cons_self)
          simp [hy]
  | cons x a ih =>
      have hx : x ≠ sep := fun e => ha (e ▸ List.mem_cons_self)
      cases b with
      | nil =>
          rcases ht with rfl | ⟨u, rfl⟩
          · simp
          · simp [hx]
      | cons y b =>
          have ih' := ih (b := b) (fun k => ha (List.mem_cons_of_mem _ k))
            fun k => hb (List.mem_cons_of_mem _ k)
          simp [ih', and_assoc]

/-- **One text below another.** -/
theorem slashed_sep_start {a b : List (List α)} (ha : Plain sep a) (hb : Plain sep b) :
    slashed sep a ++ [sep] <+: slashed sep b ↔ ∃ n names, b = a ++ n :: names := by
  induction a generalizing b with
  | nil =>
      cases b with
      | nil => simp
      | cons n names => simp [slashed_cons]
  | cons x a ih =>
      cases b with
      | nil => simp [slashed_cons]
      | cons y b =>
          have hx : sep ∉ x := ha x List.mem_cons_self
          have hy : sep ∉ y := hb y List.mem_cons_self
          have ih' := ih (b := b) (fun n hn => ha n (List.mem_cons_of_mem _ hn))
            fun n hn => hb n (List.mem_cons_of_mem _ hn)
          obtain ⟨r, hr⟩ : ∃ r, slashed sep a ++ [sep] = sep :: r := by
            cases a with
            | nil => exact ⟨_, rfl⟩
            | cons n names => exact ⟨_, rfl⟩
          rw [hr] at ih'
          rw [slashed_cons, slashed_cons, List.append_assoc, hr, List.cons_append,
            List.cons_append, List.cons_prefix_cons, name_prefix hx hy (slashed_eq_nil_or b), ih']
          constructor
          · rintro ⟨-, rfl, n, names, rfl⟩
            exact ⟨n, names, rfl⟩
          · rintro ⟨n, names, e⟩
            cases e
            exact ⟨rfl, rfl, n, names, rfl⟩

/-- **The text determines the names.** -/
theorem slashed_injective {a b : List (List α)} (ha : Plain sep a) (hb : Plain sep b)
    (h : slashed sep a = slashed sep b) : a = b := by
  have below : ∀ {a b : List (List α)}, Plain sep a → Plain sep b →
      slashed sep a = slashed sep b → a <+: b := by
    intro a b ha hb h
    have hb' : Plain sep (b ++ [[]]) := by
      intro n hn
      rcases List.mem_append.mp hn with hn | hn
      · exact hb n hn
      · rw [List.mem_singleton.mp hn]
        exact List.not_mem_nil
    -- one more name, the empty one, is one more separator
    have hp : slashed sep a ++ [sep] <+: slashed sep (b ++ [[]]) := by
      rw [slashed_snoc, h]
    obtain ⟨n, names, e⟩ := (slashed_sep_start ha hb').mp hp
    have e' : b = a ++ (n :: names).dropLast := by
      rw [← List.dropLast_append_of_ne_nil (List.cons_ne_nil n names), ← e,
        List.dropLast_concat]
    exact ⟨_, e'.symm⟩
  exact (below ha hb h).eq_of_length_le (below hb ha h.symm).length_le

end Support.Paths
