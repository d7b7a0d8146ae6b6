import Mathlib.Tactic.Common

/-!
# Support — Refinement

Labelled systems and forward simulation.  A step shows its label or is silent; the trace of a run
is the list of the labels it showed.  A simulation answers a step that shows a label by a step that
shows the same one, and a silent step by none; then every trace of the system is one of the system
that simulates it (`Simulates.run`).
-/

namespace Support
variable {σ τ ℓ : Type}

/-- Where a system starts, and its steps, each with what it shows. -/
structure LabelledSystem (σ ℓ : Type) where
  start : σ → Prop
  step : σ → Option ℓ → σ → Prop

namespace LabelledSystem

/-- The runs, with their traces. -/
inductive Run (C : LabelledSystem σ ℓ) : List ℓ → σ → Prop
  | start {s : σ} (h : C.start s) : Run C [] s
  | shows {tr : List ℓ} {s s' : σ} {a : ℓ} (h : Run C tr s) (hs : C.step s (some a) s') :
      Run C (tr ++ [a]) s'
  | silent {tr : List ℓ} {s s' : σ} (h : Run C tr s) (hs : C.step s none s') : Run C tr s'

/-- `A` follows `C`, in states that are related. -/
structure Simulates (A : LabelledSystem τ ℓ) (C : LabelledSystem σ ℓ) (R : σ → τ → Prop) :
    Prop where
  start : ∀ s, C.start s → ∃ t, A.start t ∧ R s t
  shows : ∀ s t a s', R s t → C.step s (some a) s' → ∃ t', A.step t (some a) t' ∧ R s' t'
  silent : ∀ s t s', R s t → C.step s none s' → R s' t

/-- **Every trace is one of the system that follows.** -/
theorem Simulates.run {A : LabelledSystem τ ℓ} {C : LabelledSystem σ ℓ} {R : σ → τ → Prop}
    (h : A.Simulates C R) {tr : List ℓ} {s : σ} (hr : C.Run tr s) : ∃ t, A.Run tr t ∧ R s t := by
  induction hr with
  | start hs =>
      obtain ⟨t, ht, hR⟩ := h.start _ hs
      exact ⟨t, .start ht, hR⟩
  | shows _ hs ih =>
      obtain ⟨t, ht, hR⟩ := ih
      obtain ⟨t', hstep, hR'⟩ := h.shows _ _ _ _ hR hs
      exact ⟨t', .shows ht hstep, hR'⟩
  | silent _ hs ih =>
      obtain ⟨t, ht, hR⟩ := ih
      exact ⟨t, ht, h.silent _ _ _ hR hs⟩

end LabelledSystem

end Support
