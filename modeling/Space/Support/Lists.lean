import Mathlib.Data.List.Forall2
import Mathlib.Data.List.Perm.Basic
import Mathlib.Data.List.Perm.Subperm
import Mathlib.Data.Option.Basic
import Mathlib.Tactic.Common

/-!
# Support — Lists

Lists related entry by entry, and lists contained in one another with multiplicity.
-/

namespace Support
variable {α β : Type} {R : α → β → Prop}

/-- The entries to the left of a middle entry, that entry, and those to its right. -/
theorem forall₂_middle {x : α} {b : List α} :
    ∀ {a : List α} {l : List β}, List.Forall₂ R (a ++ x :: b) l →
      ∃ a' y b', l = a' ++ y :: b' ∧ List.Forall₂ R a a' ∧ R x y ∧ List.Forall₂ R b b'
  | [], _, .cons h t => ⟨[], _, _, rfl, .nil, h, t⟩
  | _ :: _, _, .cons h t => by
      obtain ⟨a', y, b', rfl, ha, hx, hb⟩ := forall₂_middle t
      exact ⟨_ :: a', y, b', rfl, .cons h ha, hx, hb⟩

theorem forall₂_append {b : List α} :
    ∀ {a : List α} {l : List β}, List.Forall₂ R (a ++ b) l →
      ∃ a' b', l = a' ++ b' ∧ List.Forall₂ R a a' ∧ List.Forall₂ R b b'
  | [], _, h => ⟨[], _, rfl, .nil, h⟩
  | _ :: _, _, .cons h t => by
      obtain ⟨a', b', rfl, ha, hb⟩ := forall₂_append t
      exact ⟨_ :: a', b', rfl, .cons h ha, hb⟩

theorem forall₂_mem_left {x : α} :
    ∀ {a : List α} {b : List β}, List.Forall₂ R a b → x ∈ a → ∃ y ∈ b, R x y
  | _, _, .cons h t, hx => by
      rcases List.mem_cons.mp hx with rfl | hx
      · exact ⟨_, List.mem_cons_self, h⟩
      · obtain ⟨y, hy, hr⟩ := forall₂_mem_left t hx
        exact ⟨y, List.mem_cons_of_mem _ hy, hr⟩

theorem forall₂_snoc {x : α} {y : β} {a : List α} {b : List β} (h : List.Forall₂ R a b)
    (hr : R x y) : List.Forall₂ R (a ++ [x]) (b ++ [y]) := List.rel_append h (.cons hr .nil)

/-- Composed entry by entry. -/
theorem forall₂_comp {γ : Type} {S : β → γ → Prop} {T : α → γ → Prop} {a : List α} {b : List β}
    {c : List γ} (h : List.Forall₂ R a b) (hs : List.Forall₂ S b c)
    (hT : ∀ x ∈ a, ∀ y z, R x y → S y z → T x z) : List.Forall₂ T a c := by
  induction h generalizing c with
  | nil =>
      cases hs
      exact .nil
  | @cons x y a b hxy _ ih =>
      obtain ⟨z, c, hyz, hs', rfl⟩ := List.forall₂_cons_left_iff.mp hs
      refine .cons (hT x List.mem_cons_self y z hxy hyz) ?_
      exact ih hs' fun x' hx' => hT x' (List.mem_cons_of_mem _ hx')

/-- Related to the entries at their positions. -/
theorem forall₂_zipIdx {R : α → β × Nat → Prop} :
    ∀ {a : List α} {b : List β} {n : Nat}, List.Forall₂ R a (b.zipIdx n) →
      List.Forall₂ (fun x y => x.2 = y.2 ∧ R x.1 y) (a.zipIdx n) (b.zipIdx n)
  | _, [], _, h => by
      cases h
      exact .nil
  | _, y :: b, n, h => by
      rw [List.zipIdx_cons] at h
      obtain ⟨x, a, hxy, ht, rfl⟩ := List.forall₂_cons_right_iff.mp h
      exact .cons ⟨rfl, hxy⟩ (forall₂_zipIdx ht)

/-- Related lists have related entries equally often. -/
theorem count_eq_of_forall₂ [BEq α] [LawfulBEq α] [BEq β] [LawfulBEq β] {x : α} {y : β}
    {a : List α} {b : List β} (h : List.Forall₂ R a b)
    (hR : ∀ i ∈ a, ∀ j, R i j → (i = x ↔ j = y)) : a.count x = b.count y := by
  induction h with
  | nil => rfl
  | @cons i j a b hij _ ih =>
      have e : (i == x) = (j == y) := by
        rw [Bool.eq_iff_iff, beq_iff_eq, beq_iff_eq]
        exact hR i List.mem_cons_self j hij
      rw [List.count_cons, List.count_cons, e,
        ih fun i' hi' => hR i' (List.mem_cons_of_mem _ hi')]

/-- What has nothing in common with the first part is contained in the second. -/
theorem subperm_of_disjoint {a x y : List α} (h : a.Subperm (x ++ y)) (hd : ∀ i ∈ x, i ∉ a) :
    a.Subperm y := by
  obtain ⟨a', hperm, hsub⟩ := h
  obtain ⟨b, c, rfl, hb, hc⟩ := List.sublist_append_iff.mp hsub
  have hnil : b = [] := by
    refine List.eq_nil_iff_forall_not_mem.mpr fun i hi => hd i (hb.subset hi) ?_
    exact hperm.mem_iff.mp (List.mem_append_left c hi)
  exact ⟨c, by rwa [hnil] at hperm, hc⟩

/-- A symmetric relation between the members of a list holds between those of what it contains. -/
theorem pairwise_of_subperm {S : α → α → Prop} (hs : ∀ {x y}, S x y → S y x) {l l' : List α}
    (h : l.Subperm l') (hp : l'.Pairwise S) : l.Pairwise S := by
  obtain ⟨l₀, hperm, hsub⟩ := h
  exact (hperm.pairwise_iff hs).mp (hp.sublist hsub)

theorem forall₂_getElem? {a : List α} {b : List β} (h : List.Forall₂ R a b) (i : Nat) :
    Option.Rel R a[i]? b[i]? := by
  induction h generalizing i with
  | nil => exact .none
  | cons hxy _ ih =>
      cases i with
      | zero => exact .some hxy
      | succ i => exact ih i

theorem forall₂_set {a : List α} {b : List β} {x : α} {y : β} (h : List.Forall₂ R a b)
    (hxy : R x y) (i : Nat) : List.Forall₂ R (a.set i x) (b.set i y) := by
  induction h generalizing i with
  | nil => exact .nil
  | cons h ht ih =>
      cases i with
      | zero => exact .cons hxy ht
      | succ i => exact .cons h (ih i)

/-- An entry before the others. -/
theorem perm_of_getElem? {l : List α} {i : Nat} {x : α} (h : l[i]? = some x) :
    l.Perm (x :: l.eraseIdx i) := by
  obtain ⟨hi, rfl⟩ := List.getElem?_eq_some_iff.mp h
  exact (List.getElem_cons_eraseIdx_perm hi).symm

/-- What is put in the place of an entry, before the others. -/
theorem set_perm_of_getElem? {l : List α} {i : Nat} {x : α} (h : l[i]? = some x) (y : α) :
    (l.set i y).Perm (y :: l.eraseIdx i) :=
  List.set_perm_cons_eraseIdx (List.getElem?_eq_some_iff.mp h).1 y

end Support
