import Mathlib.Data.List.AList
import Mathlib.Algebra.BigOperators.Group.List.Basic
import Mathlib.Algebra.GroupWithZero.Nat
import Mathlib.Data.List.Perm.Subperm
import Mathlib.Tactic.Common

/-!
# Support — Table

Finite maps with a list of their entries (Mathlib's `AList` at constant families), and the three
things the development needs of them beyond Mathlib: lookups after an update as one `if`, the
list of values, and the sum of a measure over the values (`total`), which an insertion at a new
key raises by the measure of the new value and an erasure lowers by that of the old one.

An `Order` is an order in which some traversal happens to list a table: any permutation.
-/

namespace Support

/-- A finite map from `K` to `V`. -/
abbrev Table (K V : Type) := AList (fun _ : K => V)

/-- The order of one traversal: it lists what it is given, each element once. -/
structure Order (α : Type) where
  reorder : List α → List α
  perm : ∀ l : List α, (reorder l).Perm l

namespace Order
variable {α : Type}

/-- The order of the entries themselves. -/
def asGiven : Order α := ⟨id, fun l => List.Perm.refl l⟩

@[simp] theorem mem_reorder (ord : Order α) {l : List α} {a : α} :
    a ∈ ord.reorder l ↔ a ∈ l := (ord.perm l).mem_iff

open Classical in
/-- Any listing is the one of some order. -/
theorem exists_reorder (l : List α) : ∃ ord : Order α, ∀ l' : List α, l'.Perm l →
    ord.reorder l' = l := by
  refine ⟨⟨fun l' => if l'.Perm l then l else l', fun l' => ?_⟩, fun l' h => if_pos h⟩
  split
  · rename_i h
    exact h.symm
  · exact List.Perm.refl l'

end Order

namespace Table
variable {K V : Type} [DecidableEq K]

theorem lookup_insert (m : Table K V) (k k' : K) (v : V) :
    (m.insert k v).lookup k' = if k' = k then some v else m.lookup k' := by
  by_cases h : k' = k
  · subst h; simp
  · rw [if_neg h, AList.lookup_insert_ne h]

theorem lookup_erase (m : Table K V) (k k' : K) :
    (m.erase k).lookup k' = if k' = k then none else m.lookup k' := by
  by_cases h : k' = k
  · subst h; simp
  · rw [if_neg h, AList.lookup_erase_ne h]

/-- The entry at `k` after an insertion is the inserted one or an old one elsewhere. -/
theorem lookup_insert_eq_some {m : Table K V} {k k' : K} {v v' : V} :
    (m.insert k v).lookup k' = some v' ↔ k' = k ∧ v = v' ∨ k' ≠ k ∧ m.lookup k' = some v' := by
  rw [lookup_insert]; split <;> simp_all

theorem lookup_erase_eq_some {m : Table K V} {k k' : K} {v' : V} :
    (m.erase k).lookup k' = some v' ↔ k' ≠ k ∧ m.lookup k' = some v' := by
  rw [lookup_erase]; split <;> simp_all

theorem mem_iff {m : Table K V} {k : K} : k ∈ m ↔ ∃ v, m.lookup k = some v := by
  rw [← AList.lookup_isSome, Option.isSome_iff_exists]

theorem lookup_eq_none {m : Table K V} {k : K} : m.lookup k = none ↔ k ∉ m :=
  AList.lookup_eq_none

/-- Every entry of `m'` is entered, over those of `m`. -/
theorem lookup_union (m' m : Table K V) (k : K) :
    (m' ∪ m).lookup k = (m'.lookup k).or (m.lookup k) := by
  cases h : m'.lookup k with
  | some v => exact (AList.lookup_union_left (mem_iff.mpr ⟨v, h⟩)).trans h
  | none => exact AList.lookup_union_right (lookup_eq_none.mp h)

/-- The entries at some keys are erased. -/
def eraseAll (ks : List K) (m : Table K V) : Table K V := ks.foldl (fun m k => m.erase k) m

theorem lookup_eraseAll (ks : List K) (m : Table K V) (k : K) :
    (eraseAll ks m).lookup k = if k ∈ ks then none else m.lookup k := by
  induction ks generalizing m with
  | nil => rfl
  | cons k' ks ih =>
      rw [eraseAll, List.foldl_cons]
      refine (ih (m.erase k')).trans ?_
      rw [lookup_erase]
      by_cases h : k ∈ ks
      · rw [if_pos h, if_pos (List.mem_cons_of_mem _ h)]
      · rw [if_neg h]
        by_cases h' : k = k'
        · rw [if_pos h', if_pos (h' ▸ List.mem_cons_self)]
        · rw [if_neg h', if_neg (by simp [h, h'])]

/-- Tables that answer the same have the same entries, in some order. -/
theorem entries_perm {m m' : Table K V} (h : ∀ k, m'.lookup k = m.lookup k) :
    m'.entries.Perm m.entries := by
  refine List.lookup_ext m'.nodupKeys m.nodupKeys fun k v => ?_
  show v ∈ m'.lookup k ↔ v ∈ m.lookup k
  rw [h]

/-- The values, in the order of the entries. -/
def values (m : Table K V) : List V := m.entries.map Sigma.snd

theorem mem_values {m : Table K V} {v : V} : v ∈ m.values ↔ ∃ k, m.lookup k = some v := by
  simp only [values, List.mem_map, Sigma.exists, exists_eq_right]
  exact exists_congr fun k => AList.mem_lookup_iff.symm

/-! ### The sum of a measure over the values -/

/-- The sum of `f` over the values. -/
def total (f : V → Nat) (m : Table K V) : Nat := (m.entries.map fun e => f e.2).sum

omit [DecidableEq K] in
@[simp] theorem total_empty (f : V → Nat) : total f (∅ : Table K V) = 0 := rfl

theorem total_insert (f : V → Nat) (m : Table K V) (k : K) (v : V) :
    total f (m.insert k v) = f v + total f (m.erase k) := List.sum_cons

theorem total_insert_new (f : V → Nat) {m : Table K V} {k : K} {v : V} (h : m.lookup k = none) :
    total f (m.insert k v) = f v + total f m := by
  unfold total
  rw [AList.entries_insert_of_notMem (lookup_eq_none.mp h)]
  simp

theorem entries_perm_erase {m : Table K V} {k : K} {v : V} (h : m.lookup k = some v) :
    m.entries.Perm (⟨k, v⟩ :: (m.erase k).entries) := by
  obtain ⟨v', l₁, l₂, -, h₁, h₂⟩ := List.exists_of_kerase (AList.mem_keys.mp (mem_iff.mpr ⟨v, h⟩))
  have hv : v' = v := by
    have h' : m.lookup k = some v' := AList.mem_lookup_iff.mpr (by rw [h₁]; simp)
    rw [h] at h'
    exact (Option.some.inj h').symm
  subst hv
  rw [h₁, show (m.erase k).entries = l₁ ++ l₂ from h₂]
  exact List.perm_middle

theorem erase_of_lookup_none {m : Table K V} {k : K} (h : m.lookup k = none) : m.erase k = m :=
  AList.ext (List.kerase_of_notMem_keys fun hk => lookup_eq_none.mp h (AList.mem_keys.mpr hk))

theorem total_erase (f : V → Nat) {m : Table K V} {k : K} {v : V} (h : m.lookup k = some v) :
    total f m = f v + total f (m.erase k) := by
  unfold total
  rw [((entries_perm_erase h).map _).sum_eq]
  simp

theorem values_insert (m : Table K V) (k : K) (v : V) :
    values (m.insert k v) = v :: values (m.erase k) := List.map_cons

theorem values_perm_erase {m : Table K V} {k : K} {v : V} (h : m.lookup k = some v) :
    (values m).Perm (v :: values (m.erase k)) := by
  rw [values, values, ← List.map_cons (f := Sigma.snd) (a := (⟨k, v⟩ : (_ : K) × V))]
  exact (entries_perm_erase h).map _

theorem values_erase_subperm (m : Table K V) (k : K) :
    (values (m.erase k)).Subperm (values m) := by
  cases h : m.lookup k with
  | none => rw [erase_of_lookup_none h]
  | some v => exact (List.sublist_cons_self _ _).subperm.trans (values_perm_erase h).symm.subperm

theorem total_erase_le (f : V → Nat) (m : Table K V) (k : K) :
    total f (m.erase k) ≤ total f m := by
  cases h : m.lookup k with
  | none => rw [erase_of_lookup_none h]
  | some v => rw [total_erase f h]; exact Nat.le_add_left _ _

theorem le_total (f : V → Nat) {m : Table K V} {k : K} {v : V} (h : m.lookup k = some v) :
    f v ≤ total f m := by rw [total_erase f h]; exact Nat.le_add_right _ _

omit [DecidableEq K] in
theorem total_le_total {f g : V → Nat} (h : ∀ v, f v ≤ g v) (m : Table K V) :
    total f m ≤ total g m := by
  unfold total
  induction m.entries with
  | nil => exact Nat.le_refl _
  | cons e l ih => exact Nat.add_le_add (h e.2) ih

/-- The same sum, over the keys. -/
theorem total_eq_sum_keys (f : V → Nat) (m : Table K V) :
    total f m = (m.keys.map fun k => (m.lookup k).elim 0 f).sum := by
  unfold total
  rw [AList.keys, List.keys, List.map_map]
  refine congrArg List.sum (List.map_congr_left fun e he => ?_)
  rw [Function.comp_apply, show m.lookup e.1 = some e.2 from AList.mem_lookup_iff.mpr he]
  rfl

theorem total_eq_zero {f : V → Nat} {m : Table K V} :
    total f m = 0 ↔ ∀ k v, m.lookup k = some v → f v = 0 := by
  constructor
  · intro h k v hv
    exact Nat.le_zero.mp (h ▸ le_total f hv)
  · intro h
    unfold total
    refine List.sum_eq_zero fun n hn => ?_
    obtain ⟨⟨k, v⟩, he, rfl⟩ := List.mem_map.mp hn
    exact h k v (AList.mem_lookup_iff.mpr he)

theorem total_pos {f : V → Nat} {m : Table K V} :
    0 < total f m ↔ ∃ k v, m.lookup k = some v ∧ 0 < f v := by
  rw [Nat.pos_iff_ne_zero, Ne, total_eq_zero]
  push Not
  simp only [Nat.pos_iff_ne_zero]

end Table

end Support
