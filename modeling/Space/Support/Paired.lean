import Space.Support.Program

/-!
# Support — Paired

One program under two handlers.  The two runs are paired if both succeed with the same value or both
fail, whatever the errors say; the states they end in are then related as a postcondition says.

* `Prog.Paired`: the pair of runs, with a postcondition for success and one for failure.
* `paired_left`: what is known of one of the two runs.
* `paired_bind`, `paired_onError`, `paired_foldlM`, `paired_attempt`: its rules.
* `Prog.Alike`: two outcomes that a caller who does not read errors cannot tell apart.
-/

namespace Support
namespace Prog

variable {S : Signature} {ε α β σ τ : Type}

/-- The same value, or an error on both sides. -/
def Alike (r r' : Except ε α) : Prop :=
  (∃ a, r = .ok a ∧ r' = .ok a) ∨ ∃ e e', r = .error e ∧ r' = .error e'

/-- The runs of the program from `s` and from `t` succeed with the same value, in states related by
`Q`, or fail, in states related by `E`. -/
def Paired (h : Handler S ε σ) (h' : Handler S ε τ) (p : Prog S ε α) (Q : α → σ → τ → Prop)
    (E : σ → τ → Prop) (s : σ) (t : τ) : Prop :=
  (∃ a s' t', p.run h s = (.ok a, s') ∧ p.run h' t = (.ok a, t') ∧ Q a s' t') ∨
    ∃ e e' s' t', p.run h s = (.error e, s') ∧ p.run h' t = (.error e', t') ∧ E s' t'

section
variable {h : Handler S ε σ} {h' : Handler S ε τ} {s : σ} {t : τ} {Q : α → σ → τ → Prop}
  {E : σ → τ → Prop} {p : Prog S ε α}

/-- What the pair says of the two runs. -/
theorem Paired.run (hp : p.Paired h h' Q E s t) :
    Alike (p.run h s).1 (p.run h' t).1 ∧
      ((∃ a, (p.run h s).1 = .ok a ∧ Q a (p.run h s).2 (p.run h' t).2) ∨
        E (p.run h s).2 (p.run h' t).2) := by
  rcases hp with ⟨a, s', t', hs, ht, hQ⟩ | ⟨e, e', s', t', hs, ht, hE⟩
  · rw [hs, ht]
    exact ⟨.inl ⟨a, rfl, rfl⟩, .inl ⟨a, rfl, hQ⟩⟩
  · rw [hs, ht]
    exact ⟨.inr ⟨e, e', rfl, rfl⟩, .inr hE⟩

theorem paired_mono {Q' : α → σ → τ → Prop} {E' : σ → τ → Prop} (hp : p.Paired h h' Q E s t)
    (hQ : ∀ a s' t', Q a s' t' → Q' a s' t') (hE : ∀ s' t', E s' t' → E' s' t') :
    p.Paired h h' Q' E' s t := by
  rcases hp with ⟨a, s', t', hs, ht, hq⟩ | ⟨e, e', s', t', hs, ht, he⟩
  · exact .inl ⟨a, s', t', hs, ht, hQ a s' t' hq⟩
  · exact .inr ⟨e, e', s', t', hs, ht, hE s' t' he⟩

/-- With what is known of the run from `s`. -/
theorem paired_left {R : Except ε α → σ → Prop} (hp : p.Paired h h' Q E s t)
    (hr : R (p.run h s).1 (p.run h s).2) :
    p.Paired h h' (fun a s' t' => Q a s' t' ∧ R (.ok a) s')
      (fun s' t' => E s' t' ∧ ∃ e, R (.error e) s') s t := by
  rcases hp with ⟨a, s', t', hs, ht, hq⟩ | ⟨e, e', s', t', hs, ht, he⟩
  · rw [hs] at hr
    exact .inl ⟨a, s', t', hs, ht, hq, hr⟩
  · rw [hs] at hr
    exact .inr ⟨e, e', s', t', hs, ht, he, e, hr⟩

theorem paired_pure {a : α} (hQ : Q a s t) : (pure a : Prog S ε α).Paired h h' Q E s t :=
  .inl ⟨a, s, t, rfl, rfl, hQ⟩

theorem paired_fail {e : ε} (hE : E s t) : (Prog.fail e : Prog S ε α).Paired h h' Q E s t :=
  .inr ⟨e, e, s, t, rfl, rfl, hE⟩

theorem paired_lift {r : Except ε α} (hQ : ∀ a, r = .ok a → Q a s t) (hE : E s t) :
    (lift r : Prog S ε α).Paired h h' Q E s t := by
  cases r with
  | ok a => exact paired_pure (hQ a rfl)
  | error e => exact paired_fail hE

/-- An operation that succeeds on both sides. -/
theorem paired_ok {o : S.Op} {Q : S.Res o → σ → τ → Prop} {a : S.Res o} {s' : σ} {t' : τ}
    (hs : h o s = (.ok a, s')) (ht : h' o t = (.ok a, t')) (hQ : Q a s' t') :
    (perform o : Prog S ε _).Paired h h' Q E s t :=
  .inl ⟨a, s', t', (run_perform h o s).trans hs, (run_perform h' o t).trans ht, hQ⟩

/-- An operation that fails on both sides. -/
theorem paired_error {o : S.Op} {Q : S.Res o → σ → τ → Prop} {e e' : ε} {s' : σ} {t' : τ}
    (hs : h o s = (.error e, s')) (ht : h' o t = (.error e', t')) (hE : E s' t') :
    (perform o : Prog S ε _).Paired h h' Q E s t :=
  .inr ⟨e, e', s', t', (run_perform h o s).trans hs, (run_perform h' o t).trans ht, hE⟩

/-- An operation that answers the same on both sides and changes nothing. -/
theorem paired_answer {o : S.Op} {Q : S.Res o → σ → τ → Prop} {r : Except ε (S.Res o)}
    (hs : h o s = (r, s)) (ht : h' o t = (r, t)) (hQ : ∀ a, r = .ok a → Q a s t) (hE : E s t) :
    (perform o : Prog S ε _).Paired h h' Q E s t := by
  cases r with
  | ok a => exact paired_ok hs ht (hQ a rfl)
  | error e => exact paired_error hs ht hE

theorem paired_bind {f : α → Prog S ε β} {Q : β → σ → τ → Prop}
    (hp : p.Paired h h' (fun a s' t' => (f a).Paired h h' Q E s' t') E s t) :
    (p >>= f).Paired h h' Q E s t := by
  unfold Paired
  rw [run_bind, run_bind]
  rcases hp with ⟨a, s', t', hs, ht, hf⟩ | ⟨e, e', s', t', hs, ht, hE⟩
  · rw [hs, ht]
    exact hf
  · rw [hs, ht]
    exact .inr ⟨e, e', s', t', rfl, rfl, hE⟩

theorem paired_discard {Q : Unit → σ → τ → Prop}
    (hp : p.Paired h h' (fun _ => Q ()) E s t) :
    (discard p : Prog S ε Unit).Paired h h' Q E s t :=
  paired_bind (paired_mono hp (fun _ _ _ hq => paired_pure hq) fun _ _ he => he)

/-- What follows an error may not read it. -/
theorem paired_attempt {f : Except ε α → Prog S ε β} {q : Prog S ε β} {Q : β → σ → τ → Prop}
    (hq : ∀ e, f (.error e) = q)
    (hp : p.Paired h h' (fun a s' t' => (f (.ok a)).Paired h h' Q E s' t')
      (fun s' t' => q.Paired h h' Q E s' t') s t) :
    (p.attempt >>= f).Paired h h' Q E s t := by
  unfold Paired
  rw [run_bind, run_bind, run_attempt, run_attempt]
  rcases hp with ⟨a, s', t', hs, ht, hf⟩ | ⟨e, e', s', t', hs, ht, hf⟩
  · rw [hs, ht]
    exact hf
  · rw [hs, ht]
    show (∃ a s₁ t₁, (f (.error e)).run h s' = _ ∧ (f (.error e')).run h' t' = _ ∧ _) ∨
      ∃ e₁ e₂ s₁ t₁, (f (.error e)).run h s' = _ ∧ (f (.error e')).run h' t' = _ ∧ _
    rw [hq, hq]
    exact hf

theorem run_onError_error {cleanup : Prog S ε Unit} {e : ε} {s' : σ}
    (hs : p.run h s = (.error e, s')) :
    (p.onError cleanup).run h s = (.error e, (cleanup.run h s').2) := by
  rw [onError, run_bind, run_attempt, hs]
  show ((cleanup.attempt >>= fun _ => .fail e : Prog S ε α).run h s') = _
  rw [run_bind, run_attempt]
  rfl

theorem paired_onError {cleanup : Prog S ε Unit}
    (hp : p.Paired h h' Q (fun s' t' => cleanup.Paired h h' (fun _ => E) E s' t') s t) :
    (p.onError cleanup).Paired h h' Q E s t := by
  rcases hp with ⟨a, s', t', hs, ht, hq⟩ | ⟨e, e', s', t', hs, ht, hc⟩
  · refine .inl ⟨a, s', t', ?_, ?_, hq⟩
    · rw [onError, run_bind, run_attempt, hs]
      rfl
    · rw [onError, run_bind, run_attempt, ht]
      rfl
  · refine .inr ⟨e, e', _, _, run_onError_error hs, run_onError_error ht, ?_⟩
    rcases hc.run.2 with ⟨-, -, hE⟩ | hE
    · exact hE
    · exact hE

/-- **Loops**, over the same list on both sides. -/
theorem paired_foldlM {γ : Type} {f : β → γ → Prog S ε β} (I : List γ → β → σ → τ → Prop)
    (step : ∀ x xs b s t, I (x :: xs) b s t →
      (f b x).Paired h h' (fun b' s' t' => I xs b' s' t') E s t) :
    ∀ (xs : List γ) (b : β) (s : σ) (t : τ), I xs b s t →
      (xs.foldlM f b).Paired h h' (I []) E s t
  | [], _, _, _, hi => paired_pure hi
  | x :: xs, b, s, t, hi => by
      rw [List.foldlM_cons]
      refine paired_bind (paired_mono (step x xs b s t hi) (fun b' s' t' hi' => ?_)
        fun _ _ he => he)
      exact paired_foldlM I step xs b' s' t' hi'

end

end Prog
end Support
