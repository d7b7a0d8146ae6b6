import Space.Support.Program

/-!
# Support — Failing

Runs in which one call fails, before it takes effect or after.

* `Prog.trace`, `Prog.after`: the calls of a run, and the state once the first of them were made.
* `Prog.wp_after`, `Prog.wp_trace`: a weakest precondition over a handler that keeps the calls says
  what holds at each of these states, of the calls so far.
* `Prog.GivesUp`: after an error the program calls what it cleans up with, and fails.
* `Prog.run_failing`: such a program ends where it was once the calls that took effect were made,
  but for what it cleans up.
-/

namespace Support

variable {S : Signature} {ε α β σ γ : Type}

/-- Which call fails, whether it takes effect all the same, and what it answers. -/
structure Failure (ε : Type) where
  index : Nat
  late : Bool
  error : ε

/-- How many calls take effect until the program hears of the failure. -/
def Failure.made (f : Failure ε) : Nat := f.index + if f.late then 1 else 0

/-- One call fails; the state counts the calls. -/
def Handler.failing (h : Handler S ε σ) (f : Failure ε) : Handler S ε (σ × Nat) := fun o u =>
  if u.2 = f.index then (.error f.error, if f.late then (h o u.1).2 else u.1, u.2 + 1)
  else ((h o u.1).1, (h o u.1).2, u.2 + 1)

/-- The state keeps the calls. -/
def Handler.traced (h : Handler S ε σ) : Handler S ε (σ × List S.Op) := fun o u =>
  ((h o u.1).1, (h o u.1).2, u.2 ++ [o])

namespace Prog
variable {h : Handler S ε σ} {f : Failure ε} {s : σ} {H : List S.Op} {C : S.Op → Prop}

/-! ### The calls of a run -/

def trace (h : Handler S ε σ) : Prog S ε α → σ → List S.Op
  | .ret _, _ => []
  | .fail _, _ => []
  | .call o k, s => o :: (k (h o s).1).trace h (h o s).2

/-- The state after the first calls. -/
def after (h : Handler S ε σ) : Nat → Prog S ε α → σ → σ
  | 0, _, s => s
  | _ + 1, .ret _, s => s
  | _ + 1, .fail _, s => s
  | j + 1, .call o k, s => after h j (k (h o s).1) (h o s).2

@[simp] theorem after_zero (p : Prog S ε α) : p.after h 0 s = s := by cases p <;> rfl

/-- After all its calls the run is over. -/
theorem after_of_length_le {p : Prog S ε α} {j : Nat} (hj : (p.trace h s).length ≤ j) :
    p.after h j s = (p.run h s).2 := by
  induction p generalizing s j with
  | ret a => cases j <;> rfl
  | fail e => cases j <;> rfl
  | call o k ih =>
      cases j with
      | zero => exact absurd hj (Nat.not_succ_le_zero _)
      | succ j => exact ih _ (Nat.le_of_succ_le_succ hj)

/-- What holds at every call holds after the first calls of a run, as long as there is one more. -/
theorem wp_after {I : List S.Op → σ → Prop} {Q : Except ε α → σ × List S.Op → Prop}
    {p : Prog S ε α} (hp : p.wp h.traced.moves (fun _ u => I u.2 u.1) Q (s, H)) {j : Nat}
    (hj : j < (p.trace h s).length) : I (H ++ (p.trace h s).take j) (p.after h j s) := by
  induction p generalizing s H j with
  | ret a => exact absurd hj (Nat.not_lt_zero _)
  | fail e => exact absurd hj (Nat.not_lt_zero _)
  | call o k ih =>
      cases j with
      | zero =>
          rw [List.take_zero, List.append_nil]
          exact hp.1
      | succ j =>
          have hrest := ih _ (hp.2 _ _ rfl) (Nat.lt_of_succ_lt_succ hj)
          rw [List.append_assoc] at hrest
          exact hrest

/-- What holds at the end, of all the calls. -/
theorem wp_trace {J : S.Op → σ × List S.Op → Prop} {Q : Except ε α → σ × List S.Op → Prop}
    {p : Prog S ε α} (hp : p.wp h.traced.moves J Q (s, H)) :
    Q (p.run h s).1 ((p.run h s).2, H ++ p.trace h s) := by
  induction p generalizing s H with
  | ret a =>
      rw [trace, List.append_nil]
      exact hp
  | fail e =>
      rw [trace, List.append_nil]
      exact hp
  | call o k ih =>
      have hrest := ih _ (hp.2 _ _ rfl)
      rw [List.append_assoc] at hrest
      exact hrest

/-- One operation, kept. -/
theorem wp_tracedOp (o : S.Op) {J : S.Op → σ × List S.Op → Prop}
    {Q : Except ε (S.Res o) → σ × List S.Op → Prop} (hJ : J o (s, H))
    (hQ : Q (h o s).1 ((h o s).2, H ++ [o])) :
    (perform o).wp h.traced.moves J Q (s, H) := wp_perform_moves.mpr ⟨hJ, hQ⟩

/-! ### Programs that give up -/

/-- The program calls operations of `C` and fails. -/
def Fails (C : S.Op → Prop) : Prog S ε α → Prop
  | .ret _ => False
  | .fail _ => True
  | .call o k => C o ∧ ∀ r, (k r).Fails C

/-- After an error the program calls operations of `C` and fails. -/
def GivesUp (C : S.Op → Prop) : Prog S ε α → Prop
  | .ret _ => True
  | .fail _ => True
  | .call _ k => (∀ e, (k (.error e)).Fails C) ∧ ∀ a, (k (.ok a)).GivesUp C

theorem Fails.bind {p : Prog S ε α} (hp : p.Fails C) (g : α → Prog S ε β) :
    (p >>= g).Fails C := by
  induction p with
  | ret a => exact hp.elim
  | fail e => trivial
  | call o k ih => exact ⟨hp.1, fun r => ih r (hp.2 r)⟩

theorem Fails.givesUp {p : Prog S ε α} (hp : p.Fails C) : p.GivesUp C := by
  induction p with
  | ret a => trivial
  | fail e => trivial
  | call o k ih => exact ⟨fun e => hp.2 _, fun a => ih _ (hp.2 _)⟩

theorem givesUp_perform {o : S.Op} : (perform o : Prog S ε (S.Res o)).GivesUp C :=
  ⟨fun _ => trivial, fun _ => trivial⟩

theorem givesUp_bind {p : Prog S ε α} {g : α → Prog S ε β} (hp : p.GivesUp C)
    (hg : ∀ a, (g a).GivesUp C) : (p >>= g).GivesUp C := by
  induction p with
  | ret a => exact hg a
  | fail e => trivial
  | call o k ih => exact ⟨fun e => (hp.1 e).bind g, fun a => ih _ (hp.2 a)⟩

theorem givesUp_discard {p : Prog S ε α} (hp : p.GivesUp C) :
    (discard p : Prog S ε Unit).GivesUp C := givesUp_bind hp fun _ => trivial

theorem givesUp_foldlM {g : β → γ → Prog S ε β} (hg : ∀ b c, (g b c).GivesUp C) :
    ∀ (l : List γ) (b : β), (l.foldlM g b).GivesUp C
  | [], _ => trivial
  | c :: l, b => by
      rw [List.foldlM_cons]
      exact givesUp_bind (hg b c) fun b' => givesUp_foldlM hg l b'

theorem fails_cleanup {p : Prog S ε Unit} (hp : p.Uses C) (e : ε) :
    (p.attempt >>= fun _ => .fail e : Prog S ε α).Fails C := by
  induction p with
  | ret a => trivial
  | fail e' => trivial
  | call o k ih => exact ⟨hp.1, fun r => ih r (hp.2 r)⟩

theorem givesUp_onError {p : Prog S ε α} {cleanup : Prog S ε Unit} (hp : p.GivesUp C)
    (hc : cleanup.Uses C) : (p.onError cleanup).GivesUp C := by
  have hfails : ∀ {q : Prog S ε α}, q.Fails C → (q.onError cleanup).Fails C := by
    intro q hq
    induction q with
    | ret a => exact hq.elim
    | fail e => exact fails_cleanup hc e
    | call o k ih => exact ⟨hq.1, fun r => ih r (hq.2 r)⟩
  induction p with
  | ret a => trivial
  | fail e => exact (fails_cleanup hc e).givesUp
  | call o k ih => exact ⟨fun e => hfails (hp.1 e), fun a => ih _ (hp.2 a)⟩

/-! ### The failing run -/

/-- What operations of `C` do not change, a failure that is past does not change either. -/
theorem Fails.run_failing {p : Prog S ε α} {g : σ → β} {n : Nat}
    (hg : ∀ o s, C o → g (h o s).2 = g s) (hp : p.Fails C) (hn : f.index < n) :
    ∃ e, (p.run (h.failing f) (s, n)).1 = .error e ∧
      g (p.run (h.failing f) (s, n)).2.1 = g s := by
  induction p generalizing s n with
  | ret a => exact hp.elim
  | fail e => exact ⟨e, rfl, rfl⟩
  | call o k ih =>
      have hop : h.failing f o (s, n) = ((h o s).1, (h o s).2, n + 1) :=
        if_neg (Nat.ne_of_gt hn)
      obtain ⟨e, hr, hs⟩ := ih (h o s).1 (s := (h o s).2) (hp.2 _) (Nat.lt_succ_of_lt hn)
      refine ⟨e, ?_, ?_⟩
      · show ((k (h.failing f o (s, n)).1).run (h.failing f) (h.failing f o (s, n)).2).1 = _
        rw [hop]
        exact hr
      · show g ((k (h.failing f o (s, n)).1).run (h.failing f) (h.failing f o (s, n)).2).2.1 = _
        rw [hop]
        exact hs.trans (hg o s hp.1)

/-- **One call fails.**  A program that gives up fails, and what its cleanup does not change is as
it was after the calls that took effect. -/
theorem run_failing {p : Prog S ε α} {g : σ → β} (hg : ∀ o s, C o → g (h o s).2 = g s)
    (hp : p.GivesUp C) {m n : Nat} (hf : f.index = m + n) (hn : n < (p.trace h s).length) :
    ∃ e, (p.run (h.failing f) (s, m)).1 = .error e ∧ g (p.run (h.failing f) (s, m)).2.1 =
      g (p.after h (n + if f.late then 1 else 0) s) := by
  induction p generalizing s m n with
  | ret a => exact absurd hn (Nat.not_lt_zero _)
  | fail e => exact absurd hn (Nat.not_lt_zero _)
  | call o k ih =>
      cases n with
      | zero =>
          have hop : h.failing f o (s, m) =
              (.error f.error, if f.late then (h o s).2 else s, m + 1) := if_pos hf.symm
          obtain ⟨e, hr, hs⟩ := (hp.1 f.error).run_failing (f := f) (h := h)
            (s := if f.late then (h o s).2 else s) (n := m + 1) hg (by omega)
          refine ⟨e, ?_, ?_⟩
          · show ((k (h.failing f o (s, m)).1).run (h.failing f) (h.failing f o (s, m)).2).1 = _
            rw [hop]
            exact hr
          · show g ((k (h.failing f o (s, m)).1).run (h.failing f)
              (h.failing f o (s, m)).2).2.1 = _
            rw [hop]
            refine hs.trans (congrArg g ?_)
            cases f.late with
            | false => rfl
            | true => exact (after_zero (h := h) (s := (h o s).2) (k (h o s).1)).symm
      | succ n =>
          have hop : h.failing f o (s, m) = ((h o s).1, (h o s).2, m + 1) := by
            refine if_neg ?_
            show m ≠ f.index
            omega
          have hgives : (k (h o s).1).GivesUp C := by
            cases (h o s).1 with
            | error e => exact (hp.1 e).givesUp
            | ok a => exact hp.2 a
          obtain ⟨e, hr, hs⟩ := ih (h o s).1 hgives (s := (h o s).2) (m := m + 1) (n := n)
            (by omega) (Nat.lt_of_succ_lt_succ hn)
          refine ⟨e, ?_, ?_⟩
          · show ((k (h.failing f o (s, m)).1).run (h.failing f) (h.failing f o (s, m)).2).1 = _
            rw [hop]
            exact hr
          · show g ((k (h.failing f o (s, m)).1).run (h.failing f)
              (h.failing f o (s, m)).2).2.1 = _
            rw [hop, Nat.add_right_comm]
            exact hs

/-- A failure that is not reached. -/
theorem run_failing_unreached {p : Prog S ε α} {m : Nat}
    (hf : m + (p.trace h s).length ≤ f.index) :
    p.run (h.failing f) (s, m) =
      ((p.run h s).1, (p.run h s).2, m + (p.trace h s).length) := by
  induction p generalizing s m with
  | ret a => rfl
  | fail e => rfl
  | call o k ih =>
      have hlen : (trace h (.call o k) s).length = (trace h (k (h o s).1) (h o s).2).length + 1 :=
        rfl
      have hop : h.failing f o (s, m) = ((h o s).1, (h o s).2, m + 1) := by
        refine if_neg ?_
        show m ≠ f.index
        omega
      have hrest := ih (h o s).1 (s := (h o s).2) (m := m + 1) (by omega)
      show (k (h.failing f o (s, m)).1).run (h.failing f) (h.failing f o (s, m)).2 = _
      rw [hop, hrest, hlen, Nat.add_right_comm, Nat.add_assoc]
      rfl

end Prog

end Support
