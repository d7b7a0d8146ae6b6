import Mathlib.Data.List.Basic
import Mathlib.Tactic.Common

/-!
# Support — Lines

A text cut behind every end-of-line symbol.  Bodies without the symbol, each with one behind it,
are the lines of the text they make up, and what follows them without a symbol is one more line
(`lines_bodies`).  What is appended to a text that ends with a line adds its own lines
(`lines_append`).
-/

namespace Support.Lines
variable {α β : Type} [DecidableEq α] {eol : α}

/-- The lines of a text, each with its end-of-line symbol; the last one may have none. -/
def lines (eol : α) : List α → List (List α)
  | [] => []
  | a :: l =>
    if a = eol then [a] :: lines eol l
    else match lines eol l with
      | [] => [[a]]
      | line :: rest => (a :: line) :: rest

theorem lines_line {body rest : List α} (h : eol ∉ body) :
    lines eol (body ++ eol :: rest) = (body ++ [eol]) :: lines eol rest := by
  induction body with
  | nil => rw [List.nil_append, lines, if_pos rfl, List.nil_append]
  | cons a body ih =>
      have ha : a ≠ eol := fun e => h (e ▸ List.mem_cons_self)
      rw [List.cons_append, lines, if_neg ha, ih fun hm => h (List.mem_cons_of_mem _ hm)]
      rfl

theorem lines_tail {tail : List α} (h : eol ∉ tail) :
    lines eol tail = if tail = [] then [] else [tail] := by
  induction tail with
  | nil => rfl
  | cons a tail ih =>
      have ha : a ≠ eol := fun e => h (e ▸ List.mem_cons_self)
      rw [lines, if_neg ha, ih fun hm => h (List.mem_cons_of_mem _ hm),
        if_neg (List.cons_ne_nil _ _)]
      cases tail <;> rfl

/-- Nothing, or a text whose last line is complete. -/
def Ended (eol : α) (l : List α) : Prop := ∀ a ∈ l.getLast?, a = eol

theorem lines_ne_nil {a : α} {l : List α} : lines eol (a :: l) ≠ [] := by
  rw [lines]
  split
  · exact List.cons_ne_nil _ _
  · split <;> exact List.cons_ne_nil _ _

/-- **What is appended behind a complete line.** -/
theorem lines_append {l m : List α} (h : Ended eol l) :
    lines eol (l ++ m) = lines eol l ++ lines eol m := by
  induction l with
  | nil => rfl
  | cons a l ih =>
      rw [List.cons_append, lines, lines]
      by_cases ha : a = eol
      · rw [if_pos ha, if_pos ha]
        cases l with
        | nil => rfl
        | cons b l => rw [ih fun c hc => h c (by rwa [List.getLast?_cons_cons])]; rfl
      · rw [if_neg ha, if_neg ha]
        cases l with
        | nil => exact absurd (h a rfl) ha
        | cons b l =>
            rw [ih fun c hc => h c (by rwa [List.getLast?_cons_cons])]
            cases hl : lines eol (b :: l) with
            | nil => exact absurd hl lines_ne_nil
            | cons line rest => rfl

/-- **Bodies with an end-of-line symbol behind each, and a tail.** -/
theorem lines_bodies {body : β → List α} {tail : List α} :
    ∀ {bs : List β}, (∀ b ∈ bs, eol ∉ body b) →
      lines eol ((bs.flatMap fun b => body b ++ [eol]) ++ tail) =
        (bs.map fun b => body b ++ [eol]) ++ lines eol tail
  | [], _ => rfl
  | b :: bs, h => by
      obtain ⟨hb, hbs⟩ := List.forall_mem_cons.mp h
      rw [List.flatMap_cons, List.append_assoc, List.append_assoc, List.singleton_append,
        lines_line hb, lines_bodies hbs]
      rfl

end Support.Lines
