import Space.Support.Table
import Mathlib.Data.List.Perm.Basic

/-!
# Support — Encoded

A table under encoded keys: the entry of `k` in one table is the entry of `enc k` in the other.
An encoding need not be injective; each rule asks that no key that is present is taken for the key
it is about (`Apart`).
-/

namespace Support

variable {K L V W : Type} [DecidableEq K] [DecidableEq L] {enc : K → L} {shape : K → V → W}
  {t : Table K V} {u : Table L W} {k : K} {v : V}

/-- No other key of the table has the code of this one. -/
def Apart (enc : K → L) (t : Table K V) (k : K) : Prop := ∀ k' ∈ t, enc k' = enc k → k' = k

/-- The entries of `u` are those of `t`, under the codes of their keys. -/
def Encoded (enc : K → L) (shape : K → V → W) (t : Table K V) (u : Table L W) : Prop :=
  u.entries.Perm (t.entries.map fun e => ⟨enc e.1, shape e.1 e.2⟩)

namespace Encoded

omit [DecidableEq K] [DecidableEq L] in
theorem empty : Encoded enc shape ∅ ∅ := List.Perm.nil

theorem lookup (h : Encoded enc shape t u) (hk : Apart enc t k) :
    u.lookup (enc k) = (t.lookup k).map (shape k) := by
  cases hl : t.lookup k with
  | some v =>
      have hmem : (⟨k, v⟩ : Sigma fun _ : K => V) ∈ t.entries := AList.mem_lookup_iff.mp hl
      exact AList.mem_lookup_iff.mpr (h.mem_iff.mpr (List.mem_map_of_mem hmem))
  | none =>
      refine Table.lookup_eq_none.mpr fun hmem => ?_
      obtain ⟨w, hw⟩ := Table.mem_iff.mp hmem
      obtain ⟨⟨k', v⟩, he, hcode⟩ := List.mem_map.mp (h.mem_iff.mp (AList.mem_lookup_iff.mp hw))
      have hk' : t.lookup k' = some v := AList.mem_lookup_iff.mpr he
      obtain rfl := hk k' (Table.mem_iff.mpr ⟨v, hk'⟩) (congrArg Sigma.fst hcode)
      exact absurd (hl.symm.trans hk') nofun

theorem erase (h : Encoded enc shape t u) (hk : Apart enc t k) :
    Encoded enc shape (t.erase k) (u.erase (enc k)) := by
  have hlookup := h.lookup hk
  cases hl : t.lookup k with
  | some v =>
      rw [hl] at hlookup
      refine List.Perm.cons_inv (a := ⟨enc k, shape k v⟩) ?_
      have hu := Table.entries_perm_erase hlookup
      exact (hu.symm.trans h).trans ((Table.entries_perm_erase hl).map _)
  | none =>
      rw [hl] at hlookup
      rw [Table.erase_of_lookup_none hl, Table.erase_of_lookup_none hlookup]
      exact h

theorem insert (h : Encoded enc shape t u) (hk : Apart enc t k) :
    Encoded enc shape (t.insert k v) (u.insert (enc k) (shape k v)) := (h.erase hk).cons _

omit [DecidableEq L] in
/-- The entries whose codes pass a test. -/
theorem filter (h : Encoded enc shape t u) {p : L → Bool} {q : K → Bool}
    (hpq : ∀ k ∈ t, p (enc k) = q k) :
    ((u.entries.filter fun e => p e.1).map Sigma.snd).Perm
      ((t.entries.filter fun e => q e.1).map fun e => shape e.1 e.2) := by
  refine (List.Perm.map _ (List.Perm.filter _ h)).trans ?_
  rw [List.filter_map, List.map_map]
  refine List.Perm.of_eq (congrArg (List.map _) (List.filter_congr fun e he => ?_))
  exact hpq e.1 (Table.mem_iff.mpr ⟨e.2, AList.mem_lookup_iff.mpr he⟩)

end Encoded

end Support
