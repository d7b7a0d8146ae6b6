import Space.Support.Program
import Space.Support.Lists
import Mathlib.Algebra.BigOperators.Group.List.Basic
import Mathlib.Logic.Relation

/-!
# Support — Protocol

Threads over a shared state, each owning a share of a common *ghost*.

A protocol says which operations a thread may call by what it owns (`may`), what an outcome makes
of what it owns (`moves`), and what holds of the state and of all that is owned together (`Inv`).
The shares are added up, so what another thread owns is a frame: `step` is the one obligation,
that an allowed operation keeps the invariant whatever the frame.  A program is then checked on
its own, by a weakest precondition over ghosts alone.

* `Protocol.run`, `Protocol.visits`: one thread, run to its end or up to a call it makes.
* `Protocol.pool`: any number of threads, in any interleaving of their calls.
* `PoolRun.keeps`: an invariant of the shared state alone.
* `schedule`: one interleaving, as a function; what it reaches, a pool reaches.

`ok` is an assumption on the steps of a run; it may look at the shared state.
-/

namespace Support
open Prog

variable {S : Signature} {ε α β σ τ G : Type}

/-- A discipline for the threads of a shared state. -/
structure Protocol (S : Signature) (ε σ G : Type) [AddCommMonoid G] where
  exec : Handler S ε σ
  ok : S.Op → σ → Prop
  may : S.Op → G → Prop
  moves : Moves S ε G
  Inv : σ → G → Prop
  frame : G → Prop
  step : ∀ {o : S.Op} {s : σ} {g f : G}, frame f → Inv s (g + f) → may o g → ok o s →
    ∃ g', moves o g (exec o s).1 g' ∧ Inv (exec o s).2 (g' + f)

namespace Protocol
variable [AddCommMonoid G] (L : Protocol S ε σ G)

/-- **One thread, to its end.** -/
theorem run {p : Prog S ε α} {Q : Except ε α → G → Prop} {s : σ} {g f : G} (hf : L.frame f)
    (hI : L.Inv s (g + f)) (hw : p.wp L.moves L.may Q g)
    (hok : ∀ o s', Visits L.exec.moves p s o s' → L.ok o s') :
    ∃ g', Q (p.run L.exec s).1 g' ∧ L.Inv (p.run L.exec s).2 (g' + f) := by
  induction p generalizing s g with
  | ret a => exact ⟨g, hw, hI⟩
  | fail e => exact ⟨g, hw, hI⟩
  | call o k ih =>
      obtain ⟨g', hm, hI'⟩ := L.step hf hI hw.1 (hok o s (.here o k s))
      exact ih _ hI' (hw.2 _ _ hm) fun o' s' hv => hok o' s' (.later rfl hv)

/-- **One thread, up to a call it makes.** -/
theorem visits {p : Prog S ε α} {Q : Except ε α → G → Prop} {s s' : σ} {g f : G} {o : S.Op}
    (hf : L.frame f) (hI : L.Inv s (g + f)) (hw : p.wp L.moves L.may Q g)
    (hok : ∀ o s', Visits L.exec.moves p s o s' → L.ok o s')
    (hv : Visits L.exec.moves p s o s') : ∃ g', L.may o g' ∧ L.Inv s' (g' + f) := by
  induction hv generalizing g with
  | here o k s => exact ⟨g, hw.1, hI⟩
  | later hr hv ih =>
      obtain ⟨g', hm, hI'⟩ := L.step hf hI hw.1 (hok _ _ (.here _ _ _))
      rw [show L.exec _ _ = (_, _) from hr] at hm hI'
      exact ih hI' (hw.2 _ _ hm) fun o' s' hv' => hok o' s' (.later hr hv')

end Protocol

/-! ### Pools -/

/-- One thread of a pool makes its next call. -/
inductive PoolStep (exec : Handler S ε σ) (ok : S.Op → σ → Prop) :
    σ × List (Prog S ε α) → σ × List (Prog S ε α) → Prop where
  | call (o : S.Op) (k : Except ε (S.Res o) → Prog S ε α) (before after : List (Prog S ε α))
      (s : σ) (hok : ok o s) :
      PoolStep exec ok (s, before ++ .call o k :: after)
        ((exec o s).2, before ++ k (exec o s).1 :: after)

/-- The runs of a pool. -/
abbrev PoolRun (exec : Handler S ε σ) (ok : S.Op → σ → Prop) :
    σ × List (Prog S ε α) → σ × List (Prog S ε α) → Prop :=
  Relation.ReflTransGen (PoolStep exec ok)

/-- **Threads that own nothing.**  What every operation of `A` keeps, a pool of programs that use
`A` keeps. -/
theorem PoolRun.keeps {exec : Handler S ε σ} {ok : S.Op → σ → Prop} {A : S.Op → Prop}
    {I : σ → Prop} (step : ∀ o s, A o → ok o s → I s → I (exec o s).2)
    {s s' : σ} {ps ps' : List (Prog S ε α)} (hu : ∀ p ∈ ps, p.Uses A) (hI : I s)
    (h : PoolRun exec ok (s, ps) (s', ps')) : I s' ∧ ∀ p ∈ ps', p.Uses A := by
  generalize hc : (s', ps') = c at h
  induction h generalizing s' ps' with
  | refl => cases hc; exact ⟨hI, hu⟩
  | tail _ hstep ih =>
      cases hstep with
      | call o k before after s hok =>
        cases hc
        obtain ⟨hI, hu⟩ := ih rfl
        have ho : (Prog.call o k : Prog S ε α).Uses A := hu _ (by simp)
        refine ⟨step o s ho.1 hok hI, fun p hp => ?_⟩
        rcases List.mem_append.mp hp with hp | hp
        · exact hu p (List.mem_append_left _ hp)
        · rcases List.mem_cons.mp hp with rfl | hp
          · exact ho.2 _
          · exact hu p (List.mem_append_right _ (List.mem_cons_of_mem _ hp))

/-- Thread `i` makes its next call, if it has one and the test allows it. -/
def poolAt (exec : Handler S ε σ) (J : S.Op → σ → Bool) (c : σ × List (Prog S ε α)) (i : Nat) :
    Option (σ × List (Prog S ε α)) :=
  match c.2[i]? with
  | some (.call o k) =>
    if J o c.1 then some ((exec o c.1).2, c.2.set i (k (exec o c.1).1)) else none
  | _ => none

theorem poolStep_of_poolAt {exec : Handler S ε σ} {ok : S.Op → σ → Prop} {J : S.Op → σ → Bool}
    (hJ : ∀ o s, J o s = true → ok o s) {c c' : σ × List (Prog S ε α)} {i : Nat}
    (h : poolAt exec J c i = some c') : PoolStep exec ok c c' := by
  unfold poolAt at h
  split at h
  · next o k hi =>
      split at h
      · next hj =>
          cases h
          obtain ⟨s, ps⟩ := c
          obtain ⟨hlt, hk⟩ := List.getElem?_eq_some_iff.mp hi
          have e : ps = ps.take i ++ Prog.call o k :: ps.drop (i + 1) := by
            rw [← hk, ← List.drop_eq_getElem_cons hlt, List.take_append_drop]
          have e' : ps.set i (k (exec o s).1) =
              ps.take i ++ k (exec o s).1 :: ps.drop (i + 1) :=
            List.set_eq_take_append_cons_drop.trans (if_pos hlt)
          show PoolStep exec ok (s, ps) ((exec o s).2, ps.set i (k (exec o s).1))
          rw [e']
          conv => arg 3; rw [e]
          exact .call o k _ _ s (hJ o s hj)
      · cases h
  · cases h

/-- One call after the other, each by the thread the schedule names. -/
def schedule (exec : Handler S ε σ) (J : S.Op → σ → Bool) (c : σ × List (Prog S ε α))
    (is : List Nat) : Option (σ × List (Prog S ε α)) := is.foldlM (poolAt exec J) c

theorem poolRun_of_schedule {exec : Handler S ε σ} {ok : S.Op → σ → Prop} {J : S.Op → σ → Bool}
    (hJ : ∀ o s, J o s = true → ok o s) {c' : σ × List (Prog S ε α)} :
    ∀ {is : List Nat} {c : σ × List (Prog S ε α)},
      schedule exec J c is = some c' → PoolRun exec ok c c'
  | [], c, h => by
      cases h
      exact .refl
  | i :: is, c, h => by
      unfold schedule at h
      rw [List.foldlM_cons] at h
      obtain ⟨c₁, h₁, h₂⟩ := Option.bind_eq_some_iff.mp h
      exact .head (poolStep_of_poolAt hJ h₁) (poolRun_of_schedule hJ h₂)

namespace Protocol
variable [AddCommMonoid G] (L : Protocol S ε σ G)

/-- Each thread of the pool meets the discipline from what it owns. -/
def Meets (ps : List (Prog S ε α)) (gs : List G) : Prop :=
  List.Forall₂ (fun p g => p.wp L.moves L.may (fun _ _ => True) g) ps gs

theorem sum_middle (a b : List G) (g : G) : (a ++ g :: b).sum = g + (a ++ b).sum := by
  rw [List.sum_append, List.sum_cons, List.sum_append, add_left_comm]

/-- **Any number of threads, in any interleaving.** -/
theorem pool (hf : ∀ f, L.frame f) {s s' : σ} {ps ps' : List (Prog S ε α)} {gs : List G}
    (hI : L.Inv s gs.sum) (hm : L.Meets ps gs) (h : PoolRun L.exec L.ok (s, ps) (s', ps')) :
    ∃ gs', L.Inv s' gs'.sum ∧ L.Meets ps' gs' := by
  generalize hc : (s', ps') = c at h
  induction h generalizing s' ps' with
  | refl => cases hc; exact ⟨gs, hI, hm⟩
  | tail _ hstep ih =>
      cases hstep with
      | call o k before after s hok =>
        cases hc
        obtain ⟨gs, hI, hm⟩ := ih rfl
        obtain ⟨gb, g, ga, rfl, hb, hg, ha⟩ := forall₂_middle hm
        rw [sum_middle] at hI
        obtain ⟨g', hmv, hI'⟩ := L.step (hf _) hI hg.1 hok
        refine ⟨gb ++ g' :: ga, by rw [sum_middle]; exact hI', ?_⟩
        exact List.rel_append hb (.cons (hg.2 _ _ hmv) ha)

end Protocol
end Support
