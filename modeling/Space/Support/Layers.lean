import Space.Support.Implementation

/-!
# Support — Layers

Implementations, put together.

* `Implements.beside`: what is implemented does not mind a second interface next to it.
* `Implements.within`: a step that keeps an invariant of the state may be one of fewer.
* `Implements.byOne`: every operation by one operation, its answer read by a function.
* `Prog.without`, `ClientRun.without`: a program, and what clients do, without what they only
  report to a second interface.
* `ClientRun.along`: clients along a simulation of the state.
-/

namespace Support
open Prog

variable {S T O : Signature} {ε σ τ ω G α : Type}

/-- Two interfaces, each on its own part of the state. -/
def Moves.sum (R : Moves S ε σ) (E : Moves O ε ω) : Moves (S.sum O) ε (σ × ω)
  | .inl o, s, r, s' => R o s.1 r s'.1 ∧ s'.2 = s.2
  | .inr o, s, r, s' => E o s.2 r s'.2 ∧ s'.1 = s.1

namespace Prog

/-- What holds of a program in its own interface, where that is what the operations do. -/
theorem wp_inl_of {R₁ : Moves S ε σ} {R₂ : Moves (S.sum O) ε σ} {J₁ : S.Op → σ → Prop}
    {J₂ : (S.sum O).Op → σ → Prop} {Q : Except ε α → σ → Prop} {p : Prog S ε α} {s : σ}
    (hR : ∀ o s r s', R₂ (.inl o) s r s' → R₁ o s r s') (hJ : ∀ o s, J₁ o s → J₂ (.inl o) s)
    (h : p.wp R₁ J₁ Q s) : (p.inl : Prog (S.sum O) ε α).wp R₂ J₂ Q s := by
  induction p generalizing s with
  | ret a => exact h
  | fail e => exact h
  | call o k ih => exact ⟨hJ o s h.1, fun r s' hr => ih r (h.2 r s' (hR o s r s' hr))⟩

/-- What is said of a program, with the operations it uses. -/
theorem wp_uses {R : Moves S ε σ} {J : S.Op → σ → Prop} {A : S.Op → Prop}
    {Q : Except ε α → σ → Prop} {p : Prog S ε α} {s : σ} (hp : p.Uses A) (h : p.wp R J Q s) :
    p.wp R (fun o s => J o s ∧ A o) Q s := by
  induction p generalizing s with
  | ret a => exact h
  | fail e => exact h
  | call o k ih => exact ⟨⟨h.1, hp.1⟩, fun r s' hr => ih r (hp.2 r) (h.2 r s' hr)⟩

/-- What is left of a program once the operations of the second interface are answered. -/
def without (answer : (o : O.Op) → Except ε (O.Res o)) : Prog (S.sum O) ε α → Prog S ε α
  | .ret a => .ret a
  | .fail e => .fail e
  | .call (.inl o) k => .call o fun r => (k r).without answer
  | .call (.inr o) k => (k (answer o)).without answer

section
variable {answer : (o : O.Op) → Except ε (O.Res o)}

theorem without_bind {β : Type} (p : Prog (S.sum O) ε α) (f : α → Prog (S.sum O) ε β) :
    (p >>= f).without answer = p.without answer >>= fun a => (f a).without answer := by
  induction p with
  | ret a => rfl
  | fail e => rfl
  | call o k ih =>
      cases o with
      | inl o => exact congrArg (Prog.call o) (funext ih)
      | inr o => exact ih (answer o)

theorem without_lift (r : Except ε α) :
    (lift r : Prog (S.sum O) ε α).without answer = lift r := by cases r <;> rfl

theorem without_attempt (p : Prog (S.sum O) ε α) :
    p.attempt.without answer = (p.without answer).attempt := by
  induction p with
  | ret a => rfl
  | fail e => rfl
  | call o k ih =>
      cases o with
      | inl o => exact congrArg (Prog.call o) (funext ih)
      | inr o => exact ih (answer o)

theorem without_foldlM {β γ : Type} {f : β → γ → Prog (S.sum O) ε β} {f' : β → γ → Prog S ε β}
    (h : ∀ b c, (f b c).without answer = f' b c) (l : List γ) (b : β) :
    (l.foldlM f b).without answer = l.foldlM f' b := by
  induction l generalizing b with
  | nil => rfl
  | cons c l ih =>
      rw [List.foldlM_cons, List.foldlM_cons, without_bind, h]
      exact bind_congr fun b' => ih b'

end

/-- What the implementations use. -/
theorem uses_subst {impl : (o : S.Op) → Prog T ε (S.Res o)} {A : S.Op → Prop} {B : T.Op → Prop}
    {p : Prog S ε α} (hp : p.Uses A) (h : ∀ o, A o → (impl o).Uses B) : (p.subst impl).Uses B := by
  induction p with
  | ret a => trivial
  | fail e => trivial
  | call o k ih => exact uses_bind (uses_attempt (h o hp.1)) fun r => ih r (hp.2 r)

end Prog

/-- **What clients do on one side**: the history is one of the clients without the other. -/
theorem ClientRun.without {ι C R : Type} {program : C → Prog (S.sum O) ε R} {R₁ : Moves S ε σ}
    {E : Moves O ε ω} {answer : (o : O.Op) → Except ε (O.Res o)}
    (hE : ∀ {o w r w'}, E o w r w' → r = answer o) {s₀ s : σ × ω} {t : List (Event ι C R ε)}
    {l : List (ι × C × Prog (S.sum O) ε R)} (h : ClientRun program (Moves.sum R₁ E) s₀ t s l) :
    ClientRun (fun c => (program c).without answer) R₁ s₀.1 t s.1
      (l.map fun x => (x.1, x.2.1, x.2.2.without answer)) := by
  induction h with
  | start => exact .start
  | invoke i c _ hi ih =>
      refine .invoke i c ih fun x hx => ?_
      obtain ⟨y, hy, rfl⟩ := List.mem_map.mp hx
      exact hi y hy
  | @call _ _ _ _ _ _ _ o _ _ _ hr ih =>
      rw [List.map_append, List.map_cons] at ih ⊢
      cases o with
      | inl o => exact .call ih hr.1
      | inr o =>
          obtain ⟨hr, hs⟩ := hr
          obtain rfl := hE hr
          rw [hs]
          exact ih
  | answer _ ih =>
      rw [List.map_append, List.map_cons] at ih
      rw [List.map_append]
      exact .answer ih
  | failure _ ih =>
      rw [List.map_append, List.map_cons] at ih
      rw [List.map_append]
      exact .failure ih

/-- **Clients along a simulation**: what they do in one state they do in another. -/
theorem ClientRun.along {ι C R : Type} {program : C → Prog S ε R} {R₁ : Moves S ε σ}
    {R₂ : Moves S ε τ} {Rel : σ → τ → Prop}
    (hstep : ∀ {o s r s' x}, Rel s x → R₁ o s r s' → ∃ x', R₂ o x r x' ∧ Rel s' x') {s₀ s : σ}
    {x₀ : τ} {t : List (Event ι C R ε)} {l : List (ι × C × Prog S ε R)} (h₀ : Rel s₀ x₀)
    (h : ClientRun program R₁ s₀ t s l) : ∃ x, ClientRun program R₂ x₀ t x l ∧ Rel s x := by
  induction h with
  | start => exact ⟨x₀, .start, h₀⟩
  | invoke i c _ hi ih =>
      obtain ⟨x, hx, hrel⟩ := ih
      exact ⟨x, .invoke i c hx hi, hrel⟩
  | call _ hr ih =>
      obtain ⟨x, hx, hrel⟩ := ih
      obtain ⟨x', hr', hrel'⟩ := hstep hrel hr
      exact ⟨x', .call hx hr', hrel'⟩
  | answer _ ih =>
      obtain ⟨x, hx, hrel⟩ := ih
      exact ⟨x, .answer hx, hrel⟩
  | failure _ ih =>
      obtain ⟨x, hx, hrel⟩ := ih
      exact ⟨x, .failure hx, hrel⟩

namespace Progress
variable {step : τ → α → τ → Prop} {step' : ω → α → ω → Prop} {f : τ → ω} {a a' : τ}
  {φ φ' : Progress α}

/-- The same of another object, where its steps are those of the first. -/
theorem Advances.map (h : Advances step a φ a' φ')
    (hf : ∀ {a r a'}, step a r a' → step' (f a) r (f a')) : Advances step' (f a) φ (f a') φ' := by
  cases h with
  | stays => exact .stays _ _
  | commits h => exact .commits (hf h)
  | observes h => exact .observes (hf h)

theorem Ends.map {r : α} (h : φ.Ends step r)
    (hf : (∀ a, step a r a) → ∀ b, step' b r b) : φ.Ends step' r := by
  cases φ with
  | waiting seen => exact h.imp id hf
  | done r' => exact h

end Progress

namespace Implements
variable [AddCommMonoid G]

/-! ### Side by side -/

/-- The operations of `O` are their own implementation. -/
def besideImpl (impl : (o : S.Op) → Prog T ε (S.Res o)) :
    (o : (S.sum O).Op) → Prog (T.sum O) ε ((S.sum O).Res o)
  | .inl c => (impl c).inl
  | .inr o => performInr o

section
variable (I : Implements T S ε σ τ G) (E : Moves O ε ω)

/-- Inside an operation of `S`, what `I` allows; inside one of `O`, that one, once. -/
def besideMay : (c : (S.sum O).Op) → (T.sum O).Op → Progress (Except ε ((S.sum O).Res c)) × G → Prop
  | .inl c, .inl o, x => I.may c o x
  | .inr c, .inr o, x => o = c ∧ x.1 = .waiting ∅
  | _, _, _ => False

def besideMoves : (c : (S.sum O).Op) → Moves (T.sum O) ε (Progress (Except ε ((S.sum O).Res c)) × G)
  | .inl c, .inl o, x, r, x' => I.moves c o x r x'
  | .inr c, .inr o, x, r, x' => ∃ r₀ : Except ε (O.Res c),
    (⟨o, r⟩ : Σ o, Except ε (O.Res o)) = ⟨c, r₀⟩ ∧ x' = (.done r₀, x.2)
  | _, _, _, _, _ => False

theorem beside_step {c : (S.sum O).Op} {o : (T.sum O).Op} {r : Except ε ((T.sum O).Res o)}
    {s s' : σ × ω} {a : τ × ω} {φ : Progress (Except ε ((S.sum O).Res c))} {g f : G}
    (hc : Sum.elim I.admits (fun _ => True) c) (h : I.Inv s.1 a.1 (g + f) ∧ s.2 = a.2)
    (hm : I.besideMay c o (φ, g)) (hr : Moves.sum I.exec E o s r s') :
    ∃ φ' g' a', I.besideMoves c o (φ, g) r (φ', g') ∧
      Progress.Advances (Moves.sum I.object E c) a φ a' φ' ∧
      I.Inv s'.1 a'.1 (g' + f) ∧ s'.2 = a'.2 := by
  obtain ⟨s, w⟩ := s
  obtain ⟨a, w₁⟩ := a
  obtain ⟨s', w'⟩ := s'
  obtain ⟨h, rfl⟩ : I.Inv s a (g + f) ∧ w = w₁ := h
  rcases c with c | c <;> rcases o with o | o
  · obtain ⟨hr, rfl⟩ : I.exec o s r s' ∧ w' = w := hr
    obtain ⟨φ', g', a', hmoves, hadv, hI⟩ := I.step hc h hm hr
    exact ⟨φ', g', (a', w'), hmoves, hadv.map (f := fun a => (a, w')) fun h => ⟨h, rfl⟩, hI, rfl⟩
  · exact hm.elim
  · exact hm.elim
  · obtain ⟨rfl, rfl⟩ : o = c ∧ φ = .waiting ∅ := hm
    obtain ⟨hr, rfl⟩ : E o w r w' ∧ s' = s := hr
    exact ⟨.done r, g, (a, w'), ⟨r, rfl, rfl⟩, .commits ⟨hr, rfl⟩, h, rfl⟩

theorem beside_settles (c : (S.sum O).Op) (hc : Sum.elim I.admits (fun _ => True) c) :
    (besideImpl I.impl c).wp (I.besideMoves c) (I.besideMay c)
      (fun r x => x.1.Ends (Moves.sum I.object E c) r) (.waiting ∅, 0) := by
  cases c with
  | inl c =>
      refine wp_mono (wp_inl_of (fun _ _ _ _ h => h) (fun _ _ h => h) (I.settles c hc)) ?_
      exact fun r x h => h.map fun h b => ⟨h b.1, rfl⟩
  | inr c =>
      refine (wp_perform (S := T.sum O)).mpr ⟨⟨rfl, rfl⟩, ?_⟩
      rintro r x ⟨r₀, e, rfl⟩
      cases e
      exact rfl

/-- A second interface next to both. -/
def beside : Implements (T.sum O) (S.sum O) ε (σ × ω) (τ × ω) G where
  impl := besideImpl I.impl
  exec := Moves.sum I.exec E
  object := Moves.sum I.object E
  admits := Sum.elim I.admits fun _ => True
  may := I.besideMay
  moves := I.besideMoves
  Inv := fun s a g => I.Inv s.1 a.1 g ∧ s.2 = a.2
  step := I.beside_step E
  drop := fun h => ⟨I.drop h.1, h.2⟩
  settles := I.beside_settles E

end

/-! ### Within an invariant -/

/-- The operations of `A` keep `K`, and where it holds their steps are ones of `I`. -/
def within (I : Implements T S ε σ τ G) (exec : Moves T ε σ) (admits : S.Op → Prop)
    (A : T.Op → Prop) (K : σ → Prop)
    (hstep : ∀ {o r s s'}, A o → K s → exec o s r s' → I.exec o s r s' ∧ K s')
    (huses : ∀ c, admits c → I.admits c ∧ (I.impl c).Uses A) : Implements T S ε σ τ G where
  impl := I.impl
  exec := exec
  object := I.object
  admits := admits
  may := fun c o x => I.may c o x ∧ A o
  moves := I.moves
  Inv := fun s a g => I.Inv s a g ∧ K s
  step := fun hc h hm hr => by
    obtain ⟨hr, hK⟩ := hstep hm.2 h.2 hr
    obtain ⟨φ', g', a', hmoves, hadv, hI⟩ := I.step (huses _ hc).1 h.1 hm.1 hr
    exact ⟨φ', g', a', hmoves, hadv, hI, hK⟩
  drop := fun h => ⟨I.drop h.1, h.2⟩
  settles := fun c hc => wp_uses (huses c hc).2 (I.settles c (huses c hc).1)

/-! ### One for one -/

section
variable (op : S.Op → T.Op) (post : (o : S.Op) → Except ε (T.Res (op o)) → Except ε (S.Res o))
  (exec : Moves T ε σ) (object : Moves S ε τ) (admits : S.Op → Prop) (Rel : σ → τ → Prop)

/-- Every operation is one operation, and its answer is read. -/
def byOneImpl (o : S.Op) : Prog T ε (S.Res o) :=
  (perform (op o)).attempt >>= fun r => lift (post o r)

/-- What is admitted does what it should, in related states. -/
def byOne (h : ∀ {o r s s' a}, admits o → Rel s a → exec (op o) s r s' →
      ∃ a', object o a (post o r) a' ∧ Rel s' a') : Implements T S ε σ τ G where
  impl := byOneImpl op post
  exec := exec
  object := object
  admits := admits
  may := fun c o x => o = op c ∧ x.1 = .waiting ∅
  moves := fun c o x r x' => ∃ r₀ : Except ε (T.Res (op c)),
    (⟨o, r⟩ : Σ o, Except ε (T.Res o)) = ⟨op c, r₀⟩ ∧ x' = (.done (post c r₀), x.2)
  Inv := fun s a _ => Rel s a
  step := fun {c o r s s' a φ g f} hc hrel hm hr => by
    obtain ⟨rfl, rfl⟩ := hm
    obtain ⟨a', hobject, hrel'⟩ := h hc hrel hr
    exact ⟨_, g, a', ⟨r, rfl, rfl⟩, .commits hobject, hrel'⟩
  drop := id
  settles := fun c _ => by
    refine wp_bind.mpr (wp_attempt.mpr (wp_perform.mpr ⟨⟨rfl, rfl⟩, ?_⟩))
    rintro r x ⟨r₀, e, rfl⟩
    cases e
    exact wp_lift.mpr rfl

end

end Implements
end Support
