import Space.Support.Linearizable

/-!
# Support — Custody

Clients whose calls take things into custody and give all of them back: a thread holds a share of a
ghost while its call is open, the shares are added up as in `Protocol`, and a call that returns or
fails holds nothing.

* `Custody.held`: in every run the shared state and what the open calls hold are in the invariant.
* `Custody.quiet`: when no call is open, the shared state alone is.
* `noting`: the same steps, with notes taken of them beside the state; every run has its notes
  (`ClientRun.noting`).
-/

namespace Support
open Prog

variable {S : Signature} {ε σ ν G ι C R : Type}

/-- A discipline under which a call holds nothing once it is over. -/
structure Custody (S : Signature) (ε σ G C R : Type) [AddCommMonoid G] where
  program : C → Prog S ε R
  exec : Moves S ε σ
  may : S.Op → G → Prop
  moves : Moves S ε G
  Inv : σ → G → Prop
  step : ∀ {o : S.Op} {r : Except ε (S.Res o)} {s s' : σ} {g f : G},
    Inv s (g + f) → may o g → exec o s r s' → ∃ g', moves o g r g' ∧ Inv s' (g' + f)
  returns : ∀ c, (program c).wp moves may (fun _ g => g = 0) 0

namespace Custody
variable [AddCommMonoid G] (L : Custody S ε σ G C R) {s₀ s : σ}
  {t : List (Event ι C R ε)} {l : List (ι × C × Prog S ε R)}

/-- An open call, and what it holds. -/
def Holds (x : ι × C × Prog S ε R) (g : G) : Prop := x.2.2.wp L.moves L.may (fun _ g => g = 0) g

/-- **Any number of calls, in any interleaving.** -/
theorem held (h₀ : L.Inv s₀ 0) (h : ClientRun L.program L.exec s₀ t s l) :
    ∃ gs : List G, List.Forall₂ L.Holds l gs ∧ L.Inv s gs.sum := by
  induction h with
  | start => exact ⟨[], .nil, h₀⟩
  | invoke i c _ _ ih =>
      obtain ⟨gs, hf, hI⟩ := ih
      refine ⟨0 :: gs, .cons (L.returns c) hf, ?_⟩
      rw [List.sum_cons, zero_add]
      exact hI
  | call _ hx ih =>
      obtain ⟨gs, hf, hI⟩ := ih
      obtain ⟨gb, g, ga, rfl, hb, hw, ha⟩ := forall₂_middle hf
      rw [Protocol.sum_middle] at hI
      obtain ⟨g', hm, hI'⟩ := L.step hI hw.1 hx
      refine ⟨gb ++ g' :: ga, List.rel_append hb (.cons (hw.2 _ _ hm) ha), ?_⟩
      rw [Protocol.sum_middle]
      exact hI'
  | answer _ ih =>
      obtain ⟨gs, hf, hI⟩ := ih
      obtain ⟨gb, g, ga, rfl, hb, hw, ha⟩ := forall₂_middle hf
      obtain rfl : g = 0 := hw
      rw [Protocol.sum_middle, zero_add] at hI
      exact ⟨gb ++ ga, List.rel_append hb ha, hI⟩
  | failure _ ih =>
      obtain ⟨gs, hf, hI⟩ := ih
      obtain ⟨gb, g, ga, rfl, hb, hw, ha⟩ := forall₂_middle hf
      obtain rfl : g = 0 := hw
      rw [Protocol.sum_middle, zero_add] at hI
      exact ⟨gb ++ ga, List.rel_append hb ha, hI⟩

/-- **When no call is open** nothing is held. -/
theorem quiet (h₀ : L.Inv s₀ 0)
    (h : ClientRun L.program L.exec s₀ t s ([] : List (ι × C × Prog S ε R))) : L.Inv s 0 := by
  obtain ⟨gs, hf, hI⟩ := L.held h₀ h
  obtain rfl := List.forall₂_nil_left_iff.mp hf
  exact hI

end Custody

/-! ### Notes -/

/-- The same steps, with notes taken of them. -/
def noting (exec : Moves S ε σ) (note : (o : S.Op) → σ → Except ε (S.Res o) → σ → ν → ν) :
    Moves S ε (σ × ν) := fun o s r s' => exec o s.1 r s'.1 ∧ s'.2 = note o s.1 r s'.1 s.2

/-- **Every run has its notes.** -/
theorem ClientRun.noting {program : C → Prog S ε R} {exec : Moves S ε σ}
    {note : (o : S.Op) → σ → Except ε (S.Res o) → σ → ν → ν} {s₀ s : σ}
    {t : List (Event ι C R ε)} {l : List (ι × C × Prog S ε R)}
    (h : ClientRun program exec s₀ t s l) (n₀ : ν) :
    ∃ n, ClientRun program (Support.noting exec note) (s₀, n₀) t (s, n) l := by
  induction h with
  | start => exact ⟨n₀, .start⟩
  | invoke i c _ hi ih =>
      obtain ⟨n, ih⟩ := ih
      exact ⟨n, .invoke i c ih hi⟩
  | call _ hx ih =>
      obtain ⟨n, ih⟩ := ih
      exact ⟨note _ _ _ _ n, .call ih ⟨hx, rfl⟩⟩
  | answer _ ih =>
      obtain ⟨n, ih⟩ := ih
      exact ⟨n, .answer ih⟩
  | failure _ ih =>
      obtain ⟨n, ih⟩ := ih
      exact ⟨n, .failure ih⟩

end Support
