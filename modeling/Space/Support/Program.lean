import Mathlib.Tactic.Basic
import Mathlib.Tactic.Common

/-!
# Support — Program

Programs over an interface of operations, and what can be said of their runs.

A program either stops, with a value or with an error, or calls one operation and continues on
that operation's outcome.  Nothing in it says what an operation does: a *handler* says that, and
one program is read under several of them — sequentially (`Prog.run`), up to the operation it is
cut at (`Prog.Visits`), or as one thread of a pool (`Support.Pool`).

* `Prog.wp`: the weakest precondition of a program over a relation on states, with an assertion
  `J` that holds whenever an operation is about to be called.  `J` is what a cut at that
  operation may rely on.
* `wp_bind`, `wp_perform`, `wp_attempt`, `wp_foldlM`: its rules, one for each way the programs
  are put together.
* `wp_run`, `wp_runs`, `wp_visits`: what a weakest precondition says of the run under a handler, of
  every run under a relation, and of the cuts.
* `Prog.Ensures`: what a run under a handler ends in where it succeeds, with rules of its own.
* `visits_once`: what a program changes at most once is all there or not there at any cut.
* `inl`, `wp_inl`: a program in an interface with more operations.
-/

namespace Support

/-- An interface: its operations, and what each of them answers. -/
structure Signature where
  Op : Type
  Res : Op → Type

/-- A program over `S`, with errors in `ε`. -/
inductive Prog (S : Signature) (ε α : Type) : Type where
  | ret (a : α)
  | fail (e : ε)
  | call (o : S.Op) (k : Except ε (S.Res o) → Prog S ε α)

variable {S : Signature} {ε α β σ : Type}

namespace Prog

/-- Sequencing: an error ends the program. -/
def bind : Prog S ε α → (α → Prog S ε β) → Prog S ε β
  | .ret a, f => f a
  | .fail e, _ => .fail e
  | .call o k, f => .call o fun r => (k r).bind f

instance : Monad (Prog S ε) where
  pure := .ret
  bind := bind

@[simp] theorem ret_bind (a : α) (f : α → Prog S ε β) : (Prog.ret a >>= f) = f a := rfl

@[simp] theorem fail_bind (e : ε) (f : α → Prog S ε β) : (Prog.fail e >>= f) = .fail e := rfl

@[simp] theorem call_bind (o : S.Op) (k : Except ε (S.Res o) → Prog S ε α)
    (f : α → Prog S ε β) : (Prog.call o k >>= f) = .call o fun r => k r >>= f := rfl

instance : LawfulMonad (Prog S ε) :=
  LawfulMonad.mk' _
    (fun p => by
      show p.bind .ret = p
      induction p with
      | ret a => rfl
      | fail e => rfl
      | call o k ih => simp only [bind, ih])
    (fun _ _ => rfl)
    (fun p f g => by
      show (p.bind f).bind g = p.bind fun a => (f a).bind g
      induction p with
      | ret a => rfl
      | fail e => rfl
      | call o k ih => simp only [bind, ih])

/-- One operation; its error is the program's. -/
def perform (o : S.Op) : Prog S ε (S.Res o) :=
  .call o fun
    | .ok a => .ret a
    | .error e => .fail e

/-- The outcome of a program, as a value. -/
def attempt : Prog S ε α → Prog S ε (Except ε α)
  | .ret a => .ret (.ok a)
  | .fail e => .ret (.error e)
  | .call o k => .call o fun r => (k r).attempt

/-- The same program, its error changed. -/
def mapError (f : ε → ε) : Prog S ε α → Prog S ε α
  | .ret a => .ret a
  | .fail e => .fail (f e)
  | .call o k => .call o fun r => (k r).mapError f

/-- A pure computation that may fail. -/
def lift : Except ε α → Prog S ε α
  | .ok a => .ret a
  | .error e => .fail e

@[simp] theorem lift_ok (a : α) : (lift (.ok a) : Prog S ε α) = .ret a := rfl

@[simp] theorem lift_error (e : ε) : (lift (.error e) : Prog S ε α) = .fail e := rfl

@[simp] theorem attempt_ret (a : α) : (Prog.ret a : Prog S ε α).attempt = .ret (.ok a) := rfl

@[simp] theorem attempt_fail (e : ε) :
    (Prog.fail e : Prog S ε α).attempt = .ret (.error e) := rfl

/-- The same program, with something to do first if it fails. -/
def onError (p : Prog S ε α) (cleanup : Prog S ε Unit) : Prog S ε α :=
  p.attempt >>= fun
    | .ok a => .ret a
    | .error e => cleanup.attempt >>= fun _ => .fail e

/-! ### The operations of a program -/

/-- Every operation the program can come to call satisfies `A`. -/
def Uses (A : S.Op → Prop) : Prog S ε α → Prop
  | .ret _ => True
  | .fail _ => True
  | .call o k => A o ∧ ∀ r, (k r).Uses A

@[simp] theorem uses_ret {A : S.Op → Prop} {a : α} : (Prog.ret a : Prog S ε α).Uses A := trivial

@[simp] theorem uses_fail {A : S.Op → Prop} {e : ε} : (Prog.fail e : Prog S ε α).Uses A := trivial

@[simp] theorem uses_lift {A : S.Op → Prop} {r : Except ε α} : (lift r : Prog S ε α).Uses A := by
  cases r <;> trivial

@[simp] theorem uses_perform {A : S.Op → Prop} {o : S.Op} :
    (perform o : Prog S ε (S.Res o)).Uses A ↔ A o :=
  ⟨And.left, fun h => ⟨h, fun r => by cases r <;> trivial⟩⟩

theorem uses_mono {A B : S.Op → Prop} {p : Prog S ε α} (h : ∀ o, A o → B o) (hp : p.Uses A) :
    p.Uses B := by
  induction p with
  | ret a => trivial
  | fail e => trivial
  | call o k ih => exact ⟨h o hp.1, fun r => ih r (hp.2 r)⟩

theorem uses_true : ∀ p : Prog S ε α, p.Uses fun _ => True
  | .ret _ => trivial
  | .fail _ => trivial
  | .call _ k => ⟨trivial, fun r => uses_true (k r)⟩

theorem uses_bind {A : S.Op → Prop} {p : Prog S ε α} {f : α → Prog S ε β} (hp : p.Uses A)
    (hf : ∀ a, (f a).Uses A) : (p >>= f).Uses A := by
  induction p with
  | ret a => exact hf a
  | fail e => trivial
  | call o k ih => exact ⟨hp.1, fun r => ih r (hp.2 r)⟩

theorem uses_discard {A : S.Op → Prop} {p : Prog S ε α} (hp : p.Uses A) :
    (discard p : Prog S ε Unit).Uses A := uses_bind hp fun _ => trivial

@[simp] theorem uses_mapError {A : S.Op → Prop} {g : ε → ε} {p : Prog S ε α} :
    (p.mapError g).Uses A ↔ p.Uses A := by
  induction p with
  | ret a => rfl
  | fail e => rfl
  | call o k ih => exact and_congr_right fun _ => forall_congr' ih

theorem uses_attempt {A : S.Op → Prop} {p : Prog S ε α} (hp : p.Uses A) : p.attempt.Uses A := by
  induction p with
  | ret a => trivial
  | fail e => trivial
  | call o k ih => exact ⟨hp.1, fun r => ih r (hp.2 r)⟩

theorem uses_foldlM_mem {γ : Type} {A : S.Op → Prop} {f : β → γ → Prog S ε β} :
    ∀ (l : List γ) (b : β), (∀ b, ∀ c ∈ l, (f b c).Uses A) → (l.foldlM f b).Uses A
  | [], _, _ => trivial
  | c :: l, b, h => by
      rw [List.foldlM_cons]
      exact uses_bind (h b c List.mem_cons_self) fun b' =>
        uses_foldlM_mem l b' fun b'' c' hc => h b'' c' (List.mem_cons_of_mem _ hc)

theorem uses_foldlM {γ : Type} {A : S.Op → Prop} {f : β → γ → Prog S ε β}
    (h : ∀ b c, (f b c).Uses A) (l : List γ) (b : β) : (l.foldlM f b).Uses A :=
  uses_foldlM_mem l b fun b c _ => h b c

end Prog

/-! ### Handlers -/

/-- What the operations do, as a function on states. -/
abbrev Handler (S : Signature) (ε σ : Type) := (o : S.Op) → σ → Except ε (S.Res o) × σ

/-- What the operations may do, as a relation on states. -/
abbrev Moves (S : Signature) (ε σ : Type) := (o : S.Op) → σ → Except ε (S.Res o) → σ → Prop

/-- A handler does one thing. -/
def Handler.moves (h : Handler S ε σ) : Moves S ε σ := fun o s r s' => h o s = (r, s')

namespace Prog

/-- The run of a program under a handler. -/
def run (h : Handler S ε σ) : Prog S ε α → σ → Except ε α × σ
  | .ret a, s => (.ok a, s)
  | .fail e, s => (.error e, s)
  | .call o k, s => (k (h o s).1).run h (h o s).2

@[simp] theorem run_ret (h : Handler S ε σ) (a : α) (s : σ) :
    (Prog.ret a).run h s = (.ok a, s) := rfl

@[simp] theorem run_pure (h : Handler S ε σ) (a : α) (s : σ) :
    (pure a : Prog S ε α).run h s = (.ok a, s) := rfl

@[simp] theorem run_fail (h : Handler S ε σ) (e : ε) (s : σ) :
    (Prog.fail e : Prog S ε α).run h s = (.error e, s) := rfl

theorem run_bind (h : Handler S ε σ) (p : Prog S ε α) (f : α → Prog S ε β) (s : σ) :
    (p >>= f).run h s = match p.run h s with
      | (.ok a, s') => (f a).run h s'
      | (.error e, s') => (.error e, s') := by
  induction p generalizing s with
  | ret a => rfl
  | fail e => rfl
  | call o k ih => exact ih (h o s).1 (h o s).2

@[simp] theorem run_perform (h : Handler S ε σ) (o : S.Op) (s : σ) :
    (perform o : Prog S ε (S.Res o)).run h s = h o s := by
  unfold perform run
  rcases h o s with ⟨r | r, s'⟩ <;> rfl

@[simp] theorem run_lift (h : Handler S ε σ) (r : Except ε α) (s : σ) :
    (lift r : Prog S ε α).run h s = (r, s) := by cases r <;> rfl

theorem run_discard_fst {h : Handler S ε σ} (p : Prog S ε α) (s : σ) :
    ((discard p : Prog S ε Unit).run h s).1 = (p.run h s).1.map fun _ => () := by
  show ((p >>= fun _ => pure ()).run h s).1 = _
  rw [run_bind]
  rcases p.run h s with ⟨r | r, s'⟩ <;> rfl

theorem run_discard {h : Handler S ε σ} (p : Prog S ε α) (s : σ) :
    ((discard p : Prog S ε Unit).run h s).2 = (p.run h s).2 := by
  show ((p >>= fun _ => pure ()).run h s).2 = _
  rw [run_bind]
  rcases p.run h s with ⟨r | r, s'⟩ <;> rfl

@[simp] theorem run_attempt (h : Handler S ε σ) (p : Prog S ε α) (s : σ) :
    p.attempt.run h s = (.ok (p.run h s).1, (p.run h s).2) := by
  induction p generalizing s with
  | ret a => rfl
  | fail e => rfl
  | call o k ih => exact ih (h o s).1 (h o s).2

@[simp] theorem run_mapError (h : Handler S ε σ) (f : ε → ε) (p : Prog S ε α) (s : σ) :
    (p.mapError f).run h s = ((p.run h s).1.mapError f, (p.run h s).2) := by
  induction p generalizing s with
  | ret a => rfl
  | fail e => rfl
  | call o k ih => exact ih (h o s).1 (h o s).2

/-! ### Cuts -/

/-- Run from `s`, the program comes to call `o` in state `s'`. -/
inductive Visits (R : Moves S ε σ) : Prog S ε α → σ → S.Op → σ → Prop where
  | here (o : S.Op) (k : Except ε (S.Res o) → Prog S ε α) (s : σ) : Visits R (.call o k) s o s
  | later {o o' : S.Op} {k : Except ε (S.Res o) → Prog S ε α} {s s₁ s' : σ}
      {r : Except ε (S.Res o)} (h : R o s r s₁) (t : Visits R (k r) s₁ o' s') :
      Visits R (.call o k) s o' s'

/-- The one cut of an operation. -/
theorem visits_perform {R : Moves S ε σ} {o o' : S.Op} {s s' : σ}
    (hv : Visits R (perform o) s o' s') : o' = o ∧ s' = s := by
  unfold perform at hv
  cases hv with
  | here => exact ⟨rfl, rfl⟩
  | @later _ _ _ _ _ _ r hr hv => cases r <;> cases hv

/-- A call the run comes to is one the program can come to. -/
theorem visits_uses {R : Moves S ε σ} {A : S.Op → Prop} {p : Prog S ε α} {s s' : σ} {o : S.Op}
    (hv : Visits R p s o s') (h : p.Uses A) : A o := by
  induction hv with
  | here o k s => exact h.1
  | later _ _ ih => exact ih (h.2 _)

/-- On every path the program calls at most one operation that satisfies `A`. -/
def Once (A : S.Op → Prop) : Prog S ε α → Prop
  | .ret _ => True
  | .fail _ => True
  | .call o k => (¬ A o ∧ ∀ r, (k r).Once A) ∨ ∀ r, (k r).Uses fun o => ¬ A o

theorem Uses.once {A : S.Op → Prop} {p : Prog S ε α} (h : p.Uses fun o => ¬ A o) : p.Once A := by
  induction p with
  | ret a => trivial
  | fail e => trivial
  | call o k ih => exact .inl ⟨h.1, fun r => ih r (h.2 r)⟩

/-- Nothing, and then at most one. -/
theorem once_bind_left {A : S.Op → Prop} {p : Prog S ε α} {f : α → Prog S ε β}
    (hp : p.Uses fun o => ¬ A o) (hf : ∀ a, (f a).Once A) : (p >>= f).Once A := by
  induction p with
  | ret a => exact hf a
  | fail e => trivial
  | call o k ih => exact .inl ⟨hp.1, fun r => ih r (hp.2 r)⟩

/-- At most one, and then nothing. -/
theorem once_bind_right {A : S.Op → Prop} {p : Prog S ε α} {f : α → Prog S ε β}
    (hp : p.Once A) (hf : ∀ a, (f a).Uses fun o => ¬ A o) : (p >>= f).Once A := by
  induction p with
  | ret a => exact (hf a).once
  | fail e => trivial
  | call o k ih =>
      rcases hp with ⟨ho, hk⟩ | hk
      · exact .inl ⟨ho, fun r => ih r (hk r)⟩
      · exact .inr fun r => uses_bind (hk r) hf

theorem once_perform {A : S.Op → Prop} {o : S.Op} :
    (perform o : Prog S ε (S.Res o)).Once A := .inr fun r => by cases r <;> trivial

theorem once_mapError {A : S.Op → Prop} {g : ε → ε} {p : Prog S ε α} (h : p.Once A) :
    (p.mapError g).Once A := by
  induction p with
  | ret a => trivial
  | fail e => trivial
  | call o k ih =>
      rcases h with ⟨ho, hk⟩ | hk
      · exact .inl ⟨ho, fun r => ih r (hk r)⟩
      · exact .inr fun r => uses_mapError.mpr (hk r)

theorem once_attempt {A : S.Op → Prop} {p : Prog S ε α} (h : p.Once A) : p.attempt.Once A := by
  induction p with
  | ret a => trivial
  | fail e => trivial
  | call o k ih =>
      rcases h with ⟨ho, hk⟩ | hk
      · exact .inl ⟨ho, fun r => ih r (hk r)⟩
      · exact .inr fun r => uses_attempt (hk r)

/-- A test of every call of a run, as a function. -/
def along (h : Handler S ε σ) (J : S.Op → σ → Bool) : Prog S ε α → σ → Bool
  | .ret _, _ => true
  | .fail _, _ => true
  | .call o k, s => J o s && (k (h o s).1).along h J (h o s).2

theorem along_visits {h : Handler S ε σ} {J : S.Op → σ → Bool} {p : Prog S ε α} {s s' : σ}
    {o : S.Op} (hp : p.along h J s = true) (hv : Visits h.moves p s o s') : J o s' = true := by
  induction hv with
  | here o k s => exact (Bool.and_eq_true_iff.mp hp).1
  | @later o o' k s s₁ s' r hr _ ih =>
      have e : h o s = (r, s₁) := hr
      have h₂ := (Bool.and_eq_true_iff.mp hp).2
      rw [e] at h₂
      exact ih h₂

/-- Call number `n` of a run, and the state it is made in. -/
def callAt (h : Handler S ε σ) : Nat → Prog S ε α → σ → Option (S.Op × σ)
  | _, .ret _, _ => none
  | _, .fail _, _ => none
  | 0, .call o _, s => some (o, s)
  | n + 1, .call o k, s => callAt h n (k (h o s).1) (h o s).2

theorem visits_of_callAt {h : Handler S ε σ} {o : S.Op} {s' : σ} :
    ∀ {n : Nat} {p : Prog S ε α} {s : σ}, callAt h n p s = some (o, s') → Visits h.moves p s o s'
  | 0, .call o' k, s, e => by
      cases e
      exact .here _ _ _
  | n + 1, .call o' k, s, e => .later rfl (visits_of_callAt e)

/-- What only operations of `A` change is as it was, before the run and to its end. -/
theorem run_uses {h : Handler S ε σ} {A : S.Op → Prop} {f : σ → β} {p : Prog S ε α} {s : σ}
    (hf : ∀ o s, ¬ A o → f (h o s).2 = f s) (hp : p.Uses fun o => ¬ A o) :
    f (p.run h s).2 = f s := by
  induction p generalizing s with
  | ret a => rfl
  | fail e => rfl
  | call o k ih => exact (ih _ (hp.2 _)).trans (hf o s hp.1)

/-- What every operation of `A` keeps, a run of a program that uses `A` keeps. -/
theorem run_keeps {h : Handler S ε σ} {A : S.Op → Prop} {I : σ → Prop} {p : Prog S ε α} {s : σ}
    (hI : ∀ o s, A o → I s → I (h o s).2) (hp : p.Uses A) (hs : I s) : I (p.run h s).2 := by
  induction p generalizing s with
  | ret a => exact hs
  | fail e => exact hs
  | call o k ih => exact ih _ (hp.2 _) (hI o s hp.1 hs)

/-- So does the run as far as a cut. -/
theorem visits_keeps {h : Handler S ε σ} {A : S.Op → Prop} {I : σ → Prop} {p : Prog S ε α}
    {s s' : σ} {o : S.Op} (hI : ∀ o s, A o → I s → I (h o s).2) (hp : p.Uses A)
    (hv : Visits h.moves p s o s') (hs : I s) : I s' := by
  induction hv with
  | here o k s => exact hs
  | @later o o' k s s₁ s' r hr _ ih =>
      have e : (h o s).2 = s₁ := congrArg Prod.snd hr
      exact ih (hp.2 r) (e ▸ hI o s hp.1 hs)

theorem visits_unchanged {h : Handler S ε σ} {A : S.Op → Prop} {f : σ → β} {p : Prog S ε α}
    {s s' : σ} {o : S.Op} (hf : ∀ o s, ¬ A o → f (h o s).2 = f s) (hp : p.Uses fun o => ¬ A o)
    (hv : Visits h.moves p s o s') : f s' = f s := by
  induction hv with
  | here o k s => rfl
  | @later o o' k s s₁ s' r hr _ ih =>
      have e : (h o s).2 = s₁ := congrArg Prod.snd hr
      exact (ih (hp.2 r)).trans (e ▸ hf o s hp.1)

/-- **All or nothing.**  What is changed at most once is, wherever the run is cut, what it was
before the run or what it is after it. -/
theorem visits_once {h : Handler S ε σ} {A : S.Op → Prop} {f : σ → β} {p : Prog S ε α} {s s' : σ}
    {o : S.Op} (hf : ∀ o s, ¬ A o → f (h o s).2 = f s) (hp : p.Once A)
    (hv : Visits h.moves p s o s') : f s' = f s ∨ f s' = f (p.run h s).2 := by
  induction hv with
  | here o k s => exact .inl rfl
  | @later o o' k s s₁ s' r hr hv ih =>
      have er : (h o s).1 = r := congrArg Prod.fst hr
      have e : (h o s).2 = s₁ := congrArg Prod.snd hr
      have hrun : (call o k).run h s = (k r).run h s₁ := by rw [← er, ← e]; rfl
      rw [hrun]
      rcases hp with ⟨ho, hk⟩ | hk
      · -- the change, if any, is still to come
        rcases ih (hk r) with k' | k'
        · exact .inl (k'.trans (e ▸ hf o s ho))
        · exact .inr k'
      · -- nothing changes any more
        exact .inr ((visits_unchanged hf (hk r) hv).trans (run_uses hf (hk r)).symm)

/-! ### Weakest preconditions -/

/-- From `s`, every run of the program ends in `Q`, and `J` holds at every call it makes. -/
def wp (R : Moves S ε σ) (J : S.Op → σ → Prop) (Q : Except ε α → σ → Prop) :
    Prog S ε α → σ → Prop
  | .ret a, s => Q (.ok a) s
  | .fail e, s => Q (.error e) s
  | .call o k, s => J o s ∧ ∀ r s', R o s r s' → (k r).wp R J Q s'

section
variable {R : Moves S ε σ} {J : S.Op → σ → Prop}

@[simp] theorem wp_ret {Q : Except ε α → σ → Prop} {a : α} {s : σ} :
    (Prog.ret a).wp R J Q s ↔ Q (.ok a) s := Iff.rfl

@[simp] theorem wp_pure {Q : Except ε α → σ → Prop} {a : α} {s : σ} :
    (pure a : Prog S ε α).wp R J Q s ↔ Q (.ok a) s := Iff.rfl

@[simp] theorem wp_fail {Q : Except ε α → σ → Prop} {e : ε} {s : σ} :
    (Prog.fail e).wp R J Q s ↔ Q (.error e) s := Iff.rfl

@[simp] theorem wp_lift {Q : Except ε α → σ → Prop} {r : Except ε α} {s : σ} :
    (lift r).wp R J Q s ↔ Q r s := by cases r <;> rfl

/-- The postcondition of `p` in `p >>= f`. -/
def andThen (R : Moves S ε σ) (J : S.Op → σ → Prop) (f : α → Prog S ε β)
    (Q : Except ε β → σ → Prop) : Except ε α → σ → Prop
  | .ok a, s => (f a).wp R J Q s
  | .error e, s => Q (.error e) s

@[simp] theorem andThen_ok {f : α → Prog S ε β} {Q : Except ε β → σ → Prop} {a : α} {s : σ} :
    andThen R J f Q (.ok a) s ↔ (f a).wp R J Q s := Iff.rfl

@[simp] theorem andThen_error {f : α → Prog S ε β} {Q : Except ε β → σ → Prop} {e : ε} {s : σ} :
    andThen R J f Q (.error e) s ↔ Q (.error e) s := Iff.rfl

theorem wp_bind {p : Prog S ε α} {f : α → Prog S ε β} {Q : Except ε β → σ → Prop} {s : σ} :
    (p >>= f).wp R J Q s ↔ p.wp R J (andThen R J f Q) s := by
  induction p generalizing s with
  | ret a => rfl
  | fail e => rfl
  | call o k ih =>
      exact and_congr_right fun _ => forall_congr' fun r => forall_congr' fun s' =>
        imp_congr_right fun _ => ih r

/-- Whatever is done first, if nothing is to be said of an error. -/
theorem wp_bind_any {p : Prog S ε α} {k : α → Prog S ε β} {Q : Except ε β → σ → Prop}
    (herr : ∀ e s', Q (.error e) s') (hk : ∀ a s', (k a).wp R (fun _ _ => True) Q s') (s : σ) :
    (p >>= k).wp R (fun _ _ => True) Q s := by
  refine wp_bind.mpr ?_
  induction p generalizing s with
  | ret a => exact hk a s
  | fail e => exact herr e s
  | call o c ih => exact ⟨trivial, fun r s' _ => ih r s'⟩

theorem wp_perform {o : S.Op} {Q : Except ε (S.Res o) → σ → Prop} {s : σ} :
    (perform o).wp R J Q s ↔ J o s ∧ ∀ r s', R o s r s' → Q r s' := by
  refine and_congr_right fun _ => forall_congr' fun r => forall_congr' fun s' => ?_
  cases r <;> rfl

theorem wp_attempt {p : Prog S ε α} {Q : Except ε (Except ε α) → σ → Prop} {s : σ} :
    p.attempt.wp R J Q s ↔ p.wp R J (fun r s' => Q (.ok r) s') s := by
  induction p generalizing s with
  | ret a => rfl
  | fail e => rfl
  | call o k ih =>
      exact and_congr_right fun _ => forall_congr' fun r => forall_congr' fun s' =>
        imp_congr_right fun _ => ih r

theorem wp_mapError {p : Prog S ε α} {g : ε → ε} {Q : Except ε α → σ → Prop} {s : σ} :
    (p.mapError g).wp R J Q s ↔ p.wp R J (fun r s' => Q (r.mapError g) s') s := by
  induction p generalizing s with
  | ret a => rfl
  | fail e => rfl
  | call o k ih =>
      exact and_congr_right fun _ => forall_congr' fun r => forall_congr' fun s' =>
        imp_congr_right fun _ => ih r

/-- Consequence. -/
theorem wp_mono {p : Prog S ε α} {Q Q' : Except ε α → σ → Prop} {s : σ}
    (h : p.wp R J Q s) (hQ : ∀ r s', Q r s' → Q' r s') : p.wp R J Q' s := by
  induction p generalizing s with
  | ret a => exact hQ _ _ h
  | fail e => exact hQ _ _ h
  | call o k ih => exact ⟨h.1, fun r s' hr => ih r (h.2 r s' hr)⟩

theorem wp_discard {p : Prog S ε α} {Q : Except ε Unit → σ → Prop} {s : σ} :
    (discard p : Prog S ε Unit).wp R J Q s ↔
      p.wp R J (fun r s' => Q (r.map fun _ => ()) s') s := by
  refine wp_bind.trans ⟨fun h => wp_mono h ?_, fun h => wp_mono h ?_⟩
  · rintro (e | a) s' hr <;> exact hr
  · rintro (e | a) s' hr <;> exact hr

theorem wp_onError {p : Prog S ε α} {cleanup : Prog S ε Unit} {Q : Except ε α → σ → Prop} {s : σ}
    (h : p.wp R J (fun r s' => match r with
      | .ok a => Q (.ok a) s'
      | .error e => cleanup.wp R J (fun _ s'' => Q (.error e) s'') s') s) :
    (p.onError cleanup).wp R J Q s := by
  refine wp_bind.mpr (wp_attempt.mpr ?_)
  refine wp_mono h fun r s' hr => ?_
  cases r with
  | ok a => exact hr
  | error e => exact wp_bind.mpr (wp_attempt.mpr hr)

/-- **Loops.**  An invariant `I`, indexed by what is left to do, that each round keeps; a round
that fails ends in the postcondition of the whole loop. -/
theorem wp_foldlM {γ : Type} {f : β → γ → Prog S ε β} {Q : Except ε β → σ → Prop}
    (I : List γ → β → σ → Prop)
    (step : ∀ x xs b s, I (x :: xs) b s →
      (f b x).wp R J (fun r s' => match r with
        | .ok b' => I xs b' s'
        | .error e => Q (.error e) s') s)
    (done : ∀ b s, I [] b s → Q (.ok b) s) :
    ∀ (xs : List γ) (b : β) (s : σ), I xs b s → (xs.foldlM f b).wp R J Q s
  | [], b, s, h => done b s h
  | x :: xs, b, s, h => by
      rw [List.foldlM_cons, wp_bind]
      refine wp_mono (step x xs b s h) fun r s' hr => ?_
      cases r with
      | ok b' => exact wp_foldlM I step done xs b' s' hr
      | error e => exact hr

/-- The program can end with `r` in `s'`. -/
inductive Runs (R : Moves S ε σ) : Prog S ε α → σ → Except ε α → σ → Prop
  | ret (a : α) (s : σ) : Runs R (.ret a) s (.ok a) s
  | fail (e : ε) (s : σ) : Runs R (.fail e) s (.error e) s
  | call {o : S.Op} {k : Except ε (S.Res o) → Prog S ε α} {s s₁ s' : σ} {r : Except ε (S.Res o)}
      {r' : Except ε α} (h : R o s r s₁) (t : Runs R (k r) s₁ r' s') : Runs R (.call o k) s r' s'

/-- What a weakest precondition says of every run. -/
theorem wp_runs {p : Prog S ε α} {Q : Except ε α → σ → Prop} {s s' : σ} {r : Except ε α}
    (h : p.wp R J Q s) (t : Runs R p s r s') : Q r s' := by
  induction t with
  | ret a s => exact h
  | fail e s => exact h
  | call ho _ ih => exact ih (h.2 _ _ ho)

/-- The run under a handler is one of them. -/
theorem runs_run {h : Handler S ε σ} (hR : ∀ o s, R o s (h o s).1 (h o s).2) (p : Prog S ε α)
    (s : σ) : Runs R p s (p.run h s).1 (p.run h s).2 := by
  induction p generalizing s with
  | ret a => exact .ret a s
  | fail e => exact .fail e s
  | call o k ih => exact .call (hR o s) (ih _ _)

/-- So is a run that passes a test at each call, where the test is what `R` asks. -/
theorem runs_along {h : Handler S ε σ} {T : S.Op → σ → Bool}
    (hR : ∀ o s, T o s = true → R o s (h o s).1 (h o s).2) {p : Prog S ε α} {s : σ}
    (hp : p.along h T s = true) : Runs R p s (p.run h s).1 (p.run h s).2 := by
  induction p generalizing s with
  | ret a => exact .ret a s
  | fail e => exact .fail e s
  | call o k ih =>
      obtain ⟨ho, hk⟩ := Bool.and_eq_true_iff.mp hp
      exact .call (hR o s ho) (ih _ hk)

/-- `J` holds wherever the run can be cut. -/
theorem wp_visits {p : Prog S ε α} {Q : Except ε α → σ → Prop} {s s' : σ} {o : S.Op}
    (h : p.wp R J Q s) (hv : Visits R p s o s') : J o s' := by
  induction hv with
  | here o k s => exact h.1
  | later hr _ ih => exact ih (h.2 _ _ hr)

end

section
variable {h : Handler S ε σ} {J : S.Op → σ → Prop}

/-- The one outcome of an operation, under a handler. -/
theorem wp_perform_moves {o : S.Op} {Q : Except ε (S.Res o) → σ → Prop} {s : σ} :
    (perform o).wp h.moves J Q s ↔ J o s ∧ Q (h o s).1 (h o s).2 := by
  rw [wp_perform]
  refine and_congr_right fun _ => ⟨fun hQ => hQ _ _ rfl, ?_⟩
  intro hQ r s' hr
  rw [show h o s = (r, s') from hr] at hQ
  exact hQ

/-- What the run says is enough, where a cut may rely on nothing. -/
theorem wp_of_run {p : Prog S ε α} {Q : Except ε α → σ → Prop} {s : σ}
    (hQ : Q (p.run h s).1 (p.run h s).2) : p.wp h.moves (fun _ _ => True) Q s := by
  induction p generalizing s with
  | ret a => exact hQ
  | fail e => exact hQ
  | call o k ih =>
      refine ⟨trivial, fun r s' hr => ih r ?_⟩
      have e : h o s = (r, s') := hr
      rw [show (call o k).run h s = (k (h o s).1).run h (h o s).2 from rfl, e] at hQ
      exact hQ

/-- What only operations of `A` change is kept by a program that calls none, whatever follows. -/
theorem wp_bind_uses {γ : Type} {A : S.Op → Prop} {f : σ → γ} {p : Prog S ε α} {k : α → Prog S ε β}
    {Q : Except ε β → σ → Prop} {s : σ} (hf : ∀ o s, ¬ A o → f (h o s).2 = f s)
    (hp : p.Uses fun o => ¬ A o)
    (hk : ∀ a s', f s' = f s → (k a).wp h.moves (fun _ _ => True) Q s')
    (herr : ∀ e s', f s' = f s → Q (.error e) s') :
    (p >>= k).wp h.moves (fun _ _ => True) Q s := by
  refine wp_bind.mpr (wp_of_run ?_)
  have hkeep := run_uses (h := h) (s := s) hf hp
  cases hr : (p.run h s).1 with
  | ok a => exact hk a _ hkeep
  | error e => exact herr e _ hkeep

/-- What a weakest precondition says of the run. -/
theorem wp_run {p : Prog S ε α} {Q : Except ε α → σ → Prop} {s : σ}
    (hw : p.wp h.moves J Q s) : Q (p.run h s).1 (p.run h s).2 := by
  induction p generalizing s with
  | ret a => exact hw
  | fail e => exact hw
  | call o k ih => exact ih _ (hw.2 _ _ rfl)

/-- A weakest precondition over what operations answer, whatever the state: what the operations it
allows keep is kept, and the run answers what it says. -/
theorem wp_answers {R : Moves S ε Unit} {A : S.Op → Prop} {I : σ → Prop} {p : Prog S ε α}
    {Q : Except ε α → Unit → Prop} {s : σ} (hR : ∀ o s, R o () (h o s).1 ())
    (hI : ∀ o s, A o → I s → I (h o s).2) (hp : p.wp R (fun o _ => A o) Q ()) (hs : I s) :
    I (p.run h s).2 ∧ Q (p.run h s).1 () := by
  induction p generalizing s with
  | ret a => exact ⟨hs, hp⟩
  | fail e => exact ⟨hs, hp⟩
  | call o k ih => exact ih _ (hp.2 _ () (hR o s)) (hI o s hp.1 hs)

/-- A program of operations that are allowed. -/
theorem wp_of_uses {R : Moves S ε Unit} {A : S.Op → Prop} {p : Prog S ε α}
    {Q : Except ε α → Unit → Prop} (hp : p.Uses A) (hQ : ∀ r, Q r ()) :
    p.wp R (fun o _ => A o) Q () := by
  induction p with
  | ret a => exact hQ _
  | fail e => exact hQ _
  | call o k ih => exact ⟨hp.1, fun r _ _ => ih r (hp.2 r)⟩

end

/-! ### Runs that succeed -/

/-- Where the run from `s` succeeds, it ends in `Q`. -/
def Ensures (h : Handler S ε σ) (p : Prog S ε α) (Q : α → σ → Prop) (s : σ) : Prop :=
  ∀ a s', p.run h s = (.ok a, s') → Q a s'

section
variable {h : Handler S ε σ} {s : σ}

theorem ensures_of_wp {J : S.Op → σ → Prop} {p : Prog S ε α} {Q : α → σ → Prop}
    (hw : p.wp h.moves J (fun r s' => ∀ a, r = .ok a → Q a s') s) : p.Ensures h Q s := by
  intro a s' hr
  have hq := wp_run hw
  rw [hr] at hq
  exact hq a rfl

theorem ensures_mono {p : Prog S ε α} {Q Q' : α → σ → Prop} (hp : p.Ensures h Q s)
    (hQ : ∀ a s', Q a s' → Q' a s') : p.Ensures h Q' s :=
  fun a s' hr => hQ a s' (hp a s' hr)

theorem ensures_pure {Q : α → σ → Prop} {a : α} (hQ : Q a s) :
    (pure a : Prog S ε α).Ensures h Q s := by
  intro b s' hr
  cases hr
  exact hQ

theorem ensures_fail {Q : α → σ → Prop} {e : ε} : (Prog.fail e : Prog S ε α).Ensures h Q s := by
  intro a s' hr
  cases hr

theorem ensures_lift {Q : α → σ → Prop} {r : Except ε α} (hQ : ∀ a, r = .ok a → Q a s) :
    (lift r : Prog S ε α).Ensures h Q s := by
  intro a s' hr
  rw [run_lift] at hr
  cases hr
  exact hQ a rfl

theorem ensures_perform {o : S.Op} {Q : S.Res o → σ → Prop}
    (hQ : ∀ a s', h o s = (.ok a, s') → Q a s') : (perform o : Prog S ε _).Ensures h Q s := by
  intro a s' hr
  rw [run_perform] at hr
  exact hQ a s' hr

theorem ensures_bind {p : Prog S ε α} {f : α → Prog S ε β} {Q : β → σ → Prop}
    (hp : p.Ensures h (fun a s' => (f a).Ensures h Q s') s) : (p >>= f).Ensures h Q s := by
  intro b s' hr
  rw [run_bind] at hr
  rcases hrun : p.run h s with ⟨e | a, s₁⟩
  · rw [hrun] at hr
    cases hr
  · rw [hrun] at hr
    exact hp a s₁ hrun b s' hr

theorem ensures_foldlM {γ : Type} {f : β → γ → Prog S ε β} {I : List γ → β → σ → Prop}
    (step : ∀ x xs b s, I (x :: xs) b s → (f b x).Ensures h (fun b' s' => I xs b' s') s) :
    ∀ (xs : List γ) (b : β) (s : σ), I xs b s → (xs.foldlM f b).Ensures h (I []) s
  | [], _, _, hi => ensures_pure hi
  | x :: xs, b, s, hi => by
      rw [List.foldlM_cons]
      refine ensures_bind (ensures_mono (step x xs b s hi) fun b' s' hi' => ?_)
      exact ensures_foldlM step xs b' s' hi'

end

end Prog

/-! ### Two interfaces side by side -/

/-- The operations of both. -/
def Signature.sum (S T : Signature) : Signature := ⟨S.Op ⊕ T.Op, Sum.elim S.Res T.Res⟩

variable {T : Signature} {τ : Type}

/-- Each on its own part of the state. -/
def Handler.sum (h : Handler S ε σ) (h' : Handler T ε τ) : Handler (S.sum T) ε (σ × τ)
  | .inl o, s => ((h o s.1).1, (h o s.1).2, s.2)
  | .inr o, s => ((h' o s.2).1, s.1, (h' o s.2).2)

namespace Prog

/-- A program of the left interface. -/
def inl : Prog S ε α → Prog (S.sum T) ε α
  | .ret a => .ret a
  | .fail e => .fail e
  | .call o k => .call (.inl o) fun r => (k r).inl

/-- An operation of the right interface. -/
def performInr (o : T.Op) : Prog (S.sum T) ε (T.Res o) := perform (S := S.sum T) (.inr o)

theorem uses_inl {A : (S.sum T).Op → Prop} {p : Prog S ε α} :
    (p.inl : Prog (S.sum T) ε α).Uses A ↔ p.Uses fun o => A (.inl o) := by
  induction p with
  | ret a => rfl
  | fail e => rfl
  | call o k ih => exact and_congr_right fun _ => forall_congr' ih

/-- What holds of a program in its own interface. -/
theorem wp_inl {h : Handler S ε σ} {h' : Handler T ε τ} {J : (S.sum T).Op → σ × τ → Prop}
    {Q : Except ε α → σ × τ → Prop} {p : Prog S ε α} {s : σ × τ}
    (hJ : ∀ o s', Visits h.moves p s.1 o s' → J (.inl o) (s', s.2))
    (hQ : Q (p.run h s.1).1 ((p.run h s.1).2, s.2)) : p.inl.wp (h.sum h').moves J Q s := by
  induction p generalizing s with
  | ret a => exact hQ
  | fail e => exact hQ
  | call o k ih =>
      refine ⟨hJ o s.1 (.here _ _ _), fun r s' hr => ?_⟩
      cases hr
      exact ih _ (fun o' s' hv => hJ o' s' (.later rfl hv)) hQ

theorem visits_bind_left {R : Moves S ε σ} {p : Prog S ε α} {f : α → Prog S ε β} {s s' : σ}
    {o : S.Op} (hv : Visits R p s o s') : Visits R (p >>= f) s o s' := by
  induction hv with
  | here o k s => exact .here _ _ _
  | later hr _ ih => exact .later hr ih

/-- A cut of a sequence falls in its first part or in its second. -/
theorem visits_bind {h : Handler S ε σ} {p : Prog S ε α} {f : α → Prog S ε β} {s s' : σ}
    {o : S.Op} (hv : Visits h.moves (p >>= f) s o s') :
    Visits h.moves p s o s' ∨
      ∃ a, (p.run h s).1 = .ok a ∧ Visits h.moves (f a) (p.run h s).2 o s' := by
  induction p generalizing s with
  | ret a => exact .inr ⟨a, rfl, hv⟩
  | fail e => cases hv
  | call o' k ih =>
      cases hv with
      | here => exact .inl (.here _ _ _)
      | later hr hv =>
          obtain ⟨rfl, rfl⟩ := Prod.mk.inj (show ((h o' s).1, (h o' s).2) = (_, _) from hr)
          rcases ih _ hv with hv | ⟨a, e, hv⟩
          · exact .inl (.later rfl hv)
          · exact .inr ⟨a, e, hv⟩

end Prog

end Support
