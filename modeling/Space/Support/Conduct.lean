import Space.Support.Linearizable

/-!
# Support — Conduct

What holds of the clients of a shared state at every moment of a run, together with their history.

* `Conduct`: what an open call may do by what its thread owns, and what holds of the history, of the
  state and of all that is owned, added up as in `Protocol`.  An open call was invoked, and keeps
  `owns` of what its thread has.
* `Conduct.run`: it holds at every moment of every run.
-/

namespace Support
open Prog

variable {S : Signature} {ε σ G ι C R : Type}

/-- How the threads of clients conduct themselves. -/
structure Conduct (S : Signature) (ε σ G ι C R : Type) [AddCommMonoid G] where
  program : C → Prog S ε R
  exec : Moves S ε σ
  may : C → S.Op → G → Prop
  moves : C → Moves S ε G
  owns : C → G → Prop
  ends : C → Except ε R → G → Prop
  Inv : List (Event ι C R ε) → σ → G → Prop
  begins : ∀ {t : List (Event ι C R ε)} {s : σ} {g : G} {i : ι} {c : C},
    Inv t s g → Inv (t ++ [.invoke i c]) s g
  owns_zero : ∀ c, owns c 0
  step : ∀ {t : List (Event ι C R ε)} {s s' : σ} {g f : G} {i : ι} {c : C} {o : S.Op}
    {r : Except ε (S.Res o)}, Inv t s (g + f) → .invoke i c ∈ t → owns c g → may c o g →
    exec o s r s' → ∃ g', moves c o g r g' ∧ owns c g' ∧ Inv t s' (g' + f)
  answers : ∀ {t : List (Event ι C R ε)} {s : σ} {g f : G} {i : ι} {c : C} {r : R},
    Inv t s (g + f) → .invoke i c ∈ t → owns c g → ends c (.ok r) g →
    Inv (t ++ [.answer i r]) s f
  fails : ∀ {t : List (Event ι C R ε)} {s : σ} {g f : G} {i : ι} {c : C} {e : ε},
    Inv t s (g + f) → .invoke i c ∈ t → owns c g → ends c (.error e) g →
    Inv (t ++ [.failure i e]) s f
  settles : ∀ c, (program c).wp (moves c) (may c) (ends c) 0

namespace Conduct
variable [AddCommMonoid G] (L : Conduct S ε σ G ι C R)

/-- An open call of the history, and what its thread owns. -/
structure Follows (t : List (Event ι C R ε)) (x : ι × C × Prog S ε R) (g : G) : Prop where
  invoked : .invoke x.1 x.2.1 ∈ t
  owns : L.owns x.2.1 g
  rest : x.2.2.wp (L.moves x.2.1) (L.may x.2.1) (L.ends x.2.1) g

theorem Follows.later {L : Conduct S ε σ G ι C R} {t : List (Event ι C R ε)}
    {x : ι × C × Prog S ε R} {g : G} (h : L.Follows t x g) (e : Event ι C R ε) :
    L.Follows (t ++ [e]) x g :=
  ⟨List.mem_append_left _ h.invoked, h.owns, h.rest⟩

/-- **At every moment of every run.** -/
theorem run {s₀ s : σ} {t : List (Event ι C R ε)} {l : List (ι × C × Prog S ε R)}
    (h₀ : L.Inv [] s₀ 0) (h : ClientRun L.program L.exec s₀ t s l) :
    ∃ gs, L.Inv t s gs.sum ∧ List.Forall₂ (L.Follows t) l gs := by
  induction h with
  | start => exact ⟨[], h₀, .nil⟩
  | invoke i c _ hi ih =>
      obtain ⟨gs, hI, hl⟩ := ih
      refine ⟨0 :: gs, ?_, .cons ⟨?_, L.owns_zero c, L.settles c⟩ (hl.imp fun _ _ h => h.later _)⟩
      · rw [List.sum_cons, zero_add]
        exact L.begins hI
      · exact List.mem_append_right _ (List.mem_singleton_self _)
  | call _ hr ih =>
      obtain ⟨gs, hI, hl⟩ := ih
      obtain ⟨gb, g, ga, rfl, hb, hg, ha⟩ := forall₂_middle hl
      rw [Protocol.sum_middle] at hI
      obtain ⟨g', hm, ho, hI'⟩ := L.step hI hg.invoked hg.owns hg.rest.1 hr
      refine ⟨gb ++ g' :: ga, by rwa [Protocol.sum_middle], List.rel_append hb (.cons ?_ ha)⟩
      exact ⟨hg.invoked, ho, hg.rest.2 _ _ hm⟩
  | answer _ ih =>
      obtain ⟨gs, hI, hl⟩ := ih
      obtain ⟨gb, g, ga, rfl, hb, hg, ha⟩ := forall₂_middle hl
      rw [Protocol.sum_middle] at hI
      refine ⟨gb ++ ga, L.answers hI hg.invoked hg.owns hg.rest, ?_⟩
      exact List.rel_append (hb.imp fun _ _ h => h.later _) (ha.imp fun _ _ h => h.later _)
  | failure _ ih =>
      obtain ⟨gs, hI, hl⟩ := ih
      obtain ⟨gb, g, ga, rfl, hb, hg, ha⟩ := forall₂_middle hl
      rw [Protocol.sum_middle] at hI
      refine ⟨gb ++ ga, L.fails hI hg.invoked hg.owns hg.rest, ?_⟩
      exact List.rel_append (hb.imp fun _ _ h => h.later _) (ha.imp fun _ _ h => h.later _)

end Conduct
end Support
