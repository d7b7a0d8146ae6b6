import Space.Support.Protocol

/-!
# Support — Linearizable

Clients that call the methods of a shared object, each method a program over the operations of a
shared state, against an *atomic* object whose methods happen in one step each.

* `ClientRun`: the runs of the clients, with the history of their invocations and answers.
* `AtomicRun`: the histories of the atomic object.  Between its invocation and its answer a call
  takes effect once (`commit`), and then it does not fail; or it leaves the object as it is
  (`observe`), and then its answer is one the object gave at that moment.  A call that fails took
  no effect.
* `Linear`: a simulation, one operation at a time.  The threads own shares of a ghost, added up as
  in `Protocol`; `step` may let the thread's call take effect, and `settles` checks each method on
  its own, by a weakest precondition.  What the object leaves open about an answer (`like`) may be
  settled after the moment the call takes effect.
* `Linear.linearizes`: every history of the clients is one of the atomic object.
* `clientSchedule`: one interleaving, as a function; what it reaches, the clients reach.
-/

namespace Support
open Prog

variable {S : Signature} {ε σ G ι C A R : Type}

/-- What a history records. -/
inductive Event (ι C R ε : Type) where
  | invoke (i : ι) (c : C)
  | answer (i : ι) (r : R)
  | failure (i : ι) (e : ε)
  deriving DecidableEq

/-! ### The atomic object -/

/-- How far a call is: without effect so far, after its effect, or after it observed an answer. -/
inductive Phase (R : Type) where
  | waiting
  | done (r : R)
  | seen (r : R)

namespace Phase

/-- The answer a call may give. -/
def Answers : Phase R → R → Prop
  | waiting, _ => False
  | done r, r' => r = r'
  | seen r, r' => r = r'

/-- The call took no effect. -/
def Harmless : Phase R → Prop
  | done _ => False
  | _ => True

@[simp] theorem answers_waiting {r : R} : ¬ (waiting : Phase R).Answers r := id
@[simp] theorem answers_done {r r' : R} : (done r).Answers r' ↔ r = r' := Iff.rfl
@[simp] theorem answers_seen {r r' : R} : (seen r).Answers r' ↔ r = r' := Iff.rfl
@[simp] theorem harmless_waiting : (waiting : Phase R).Harmless := trivial
@[simp] theorem harmless_done {r : R} : ¬ (done r).Harmless := id
@[simp] theorem harmless_seen {r : R} : (seen r).Harmless := trivial

end Phase

/-- What the methods of an object do, each in one step: the state before, the answer, the state
after. -/
abbrev Atomic (C A R : Type) := C → A → R → A → Prop

/-- The histories of an atomic object from `a₀`: the state they lead to, and the calls that are
open there. -/
inductive AtomicRun (object : Atomic C A R) (a₀ : A) :
    List (Event ι C R ε) → A → List (ι × C × Phase R) → Prop where
  | start : AtomicRun object a₀ [] a₀ []
  | invoke {t : List (Event ι C R ε)} {a : A} {l : List (ι × C × Phase R)} (i : ι) (c : C)
      (h : AtomicRun object a₀ t a l) (hi : ∀ x ∈ l, x.1 ≠ i) :
      AtomicRun object a₀ (t ++ [.invoke i c]) a ((i, c, .waiting) :: l)
  | commit {t : List (Event ι C R ε)} {a a' : A} {before after : List (ι × C × Phase R)} {i : ι}
      {c : C} {r : R} (h : AtomicRun object a₀ t a (before ++ (i, c, .waiting) :: after))
      (hc : object c a r a') : AtomicRun object a₀ t a' (before ++ (i, c, .done r) :: after)
  | observe {t : List (Event ι C R ε)} {a : A} {before after : List (ι × C × Phase R)} {i : ι}
      {c : C} {r : R} (h : AtomicRun object a₀ t a (before ++ (i, c, .waiting) :: after))
      (hc : object c a r a) : AtomicRun object a₀ t a (before ++ (i, c, .seen r) :: after)
  | answer {t : List (Event ι C R ε)} {a : A} {before after : List (ι × C × Phase R)} {i : ι}
      {c : C} {φ : Phase R} {r : R} (h : AtomicRun object a₀ t a (before ++ (i, c, φ) :: after))
      (hr : φ.Answers r) : AtomicRun object a₀ (t ++ [.answer i r]) a (before ++ after)
  | failure {t : List (Event ι C R ε)} {a : A} {before after : List (ι × C × Phase R)} {i : ι}
      {c : C} {φ : Phase R} (e : ε) (h : AtomicRun object a₀ t a (before ++ (i, c, φ) :: after))
      (hφ : φ.Harmless) : AtomicRun object a₀ (t ++ [.failure i e]) a (before ++ after)

/-! ### The clients -/

/-- The histories of the clients from `s₀`: the state they lead to, and the calls that are open
there, each with what is left of its program. -/
inductive ClientRun (program : C → Prog S ε R) (exec : Moves S ε σ) (s₀ : σ) :
    List (Event ι C R ε) → σ → List (ι × C × Prog S ε R) → Prop where
  | start : ClientRun program exec s₀ [] s₀ []
  | invoke {t : List (Event ι C R ε)} {s : σ} {l : List (ι × C × Prog S ε R)} (i : ι) (c : C)
      (h : ClientRun program exec s₀ t s l) (hi : ∀ x ∈ l, x.1 ≠ i) :
      ClientRun program exec s₀ (t ++ [.invoke i c]) s ((i, c, program c) :: l)
  | call {t : List (Event ι C R ε)} {s s' : σ} {before after : List (ι × C × Prog S ε R)} {i : ι}
      {c : C} {o : S.Op} {k : Except ε (S.Res o) → Prog S ε R} {r : Except ε (S.Res o)}
      (h : ClientRun program exec s₀ t s (before ++ (i, c, .call o k) :: after))
      (hr : exec o s r s') : ClientRun program exec s₀ t s' (before ++ (i, c, k r) :: after)
  | answer {t : List (Event ι C R ε)} {s : σ} {before after : List (ι × C × Prog S ε R)} {i : ι}
      {c : C} {r : R} (h : ClientRun program exec s₀ t s (before ++ (i, c, .ret r) :: after)) :
      ClientRun program exec s₀ (t ++ [.answer i r]) s (before ++ after)
  | failure {t : List (Event ι C R ε)} {s : σ} {before after : List (ι × C × Prog S ε R)} {i : ι}
      {c : C} {e : ε} (h : ClientRun program exec s₀ t s (before ++ (i, c, .fail e) :: after)) :
      ClientRun program exec s₀ (t ++ [.failure i e]) s (before ++ after)

/-- An event, its answer seen through `f`. -/
def Event.map {R' : Type} (f : R → R') : Event ι C R ε → Event ι C R' ε
  | invoke i c => .invoke i c
  | answer i r => .answer i (f r)
  | failure i e => .failure i e

/-- The answers of a history. -/
def answersOf (t : List (Event ι C R ε)) : List (ι × R) :=
  t.filterMap fun
    | .answer i r => some (i, r)
    | _ => none

/-- **The clients, with their answers seen through `f`.** -/
theorem ClientRun.map {R' : Type} {program : C → Prog S ε R} {exec : Moves S ε σ} {s₀ s : σ}
    {t : List (Event ι C R ε)} {l : List (ι × C × Prog S ε R)}
    (h : ClientRun program exec s₀ t s l) (f : R → R') :
    ClientRun (fun c => program c >>= fun r => .ret (f r)) exec s₀ (t.map (Event.map f)) s
      (l.map fun x => (x.1, x.2.1, x.2.2 >>= fun r => .ret (f r))) := by
  induction h with
  | start => exact .start
  | invoke i c _ hi ih =>
      rw [List.map_append]
      refine .invoke i c ih fun x hx => ?_
      obtain ⟨y, hy, rfl⟩ := List.mem_map.mp hx
      exact hi y hy
  | call _ hr ih =>
      rw [List.map_append, List.map_cons] at ih ⊢
      exact .call ih hr
  | answer _ ih =>
      rw [List.map_append, List.map_cons] at ih
      rw [List.map_append, List.map_append]
      exact .answer ih
  | failure _ ih =>
      rw [List.map_append, List.map_cons] at ih
      rw [List.map_append, List.map_append]
      exact .failure ih

/-- What a schedule names: an invocation, or the next step of an open call. -/
inductive Turn (ι C : Type) where
  | invoke (i : ι) (c : C)
  | next (n : Nat)

/-- A history, the state it leads to, and the open calls. -/
abbrev Clients (S : Signature) (ε σ ι C R : Type) :=
  List (Event ι C R ε) × σ × List (ι × C × Prog S ε R)

/-- One turn, if it can be taken and the test allows it. -/
def clientAt [DecidableEq ι] (program : C → Prog S ε R) (h : Handler S ε σ)
    (J : S.Op → σ → Bool) (x : Clients S ε σ ι C R) : Turn ι C → Option (Clients S ε σ ι C R)
  | .invoke i c =>
    if ∀ y ∈ x.2.2, y.1 ≠ i then
      some (x.1 ++ [.invoke i c], x.2.1, (i, c, program c) :: x.2.2)
    else none
  | .next n =>
    match x.2.2[n]? with
    | some (i, c, .call o k) =>
      if J o x.2.1 then
        some (x.1, (h o x.2.1).2,
          x.2.2.take n ++ (i, c, k (h o x.2.1).1) :: x.2.2.drop (n + 1))
      else none
    | some (i, _, .ret r) =>
      some (x.1 ++ [.answer i r], x.2.1, x.2.2.take n ++ x.2.2.drop (n + 1))
    | some (i, _, .fail e) =>
      some (x.1 ++ [.failure i e], x.2.1, x.2.2.take n ++ x.2.2.drop (n + 1))
    | none => none

/-- One turn after the other. -/
def clientSchedule [DecidableEq ι] (program : C → Prog S ε R) (h : Handler S ε σ)
    (J : S.Op → σ → Bool) (s₀ : σ) (turns : List (Turn ι C)) : Option (Clients S ε σ ι C R) :=
  turns.foldlM (clientAt program h J) ([], s₀, [])

section
variable [DecidableEq ι] {program : C → Prog S ε R} {h : Handler S ε σ} {J : S.Op → σ → Bool}
  {exec : Moves S ε σ} {s₀ : σ} {x x' : Clients S ε σ ι C R}

theorem clientRun_of_clientAt (hJ : ∀ o s, J o s = true → exec o s (h o s).1 (h o s).2)
    {u : Turn ι C} (hx : ClientRun program exec s₀ x.1 x.2.1 x.2.2)
    (hu : clientAt program h J x u = some x') : ClientRun program exec s₀ x'.1 x'.2.1 x'.2.2 := by
  obtain ⟨t, s, l⟩ := x
  cases u with
  | invoke i c =>
      simp only [clientAt] at hu
      split at hu
      · next hi => cases hu; exact .invoke i c hx hi
      · cases hu
  | next n =>
      have split_at {y : ι × C × Prog S ε R} (hy : l[n]? = some y) :
          l = l.take n ++ y :: l.drop (n + 1) := by
        obtain ⟨hlt, rfl⟩ := List.getElem?_eq_some_iff.mp hy
        rw [← List.drop_eq_getElem_cons hlt, List.take_append_drop]
      simp only [clientAt] at hu
      split at hu
      · next i c o k hy =>
          split at hu
          · next hj =>
              cases hu
              rw [split_at hy] at hx
              exact .call hx (hJ o s hj)
          · cases hu
      · next i c r hy =>
          cases hu
          rw [split_at hy] at hx
          exact .answer hx
      · next i c e hy =>
          cases hu
          rw [split_at hy] at hx
          exact .failure hx
      · cases hu

theorem clientRun_of_clientSchedule
    (hJ : ∀ o s, J o s = true → exec o s (h o s).1 (h o s).2) {turns : List (Turn ι C)}
    (hx : clientSchedule program h J s₀ turns = some x) :
    ClientRun program exec s₀ x.1 x.2.1 x.2.2 := by
  have run : ∀ (turns : List (Turn ι C)) (y : Clients S ε σ ι C R),
      ClientRun program exec s₀ y.1 y.2.1 y.2.2 →
      turns.foldlM (clientAt program h J) y = some x →
      ClientRun program exec s₀ x.1 x.2.1 x.2.2 := by
    intro turns
    induction turns with
    | nil =>
        intro y hy e
        cases e
        exact hy
    | cons u turns ih =>
        intro y hy e
        rw [List.foldlM_cons] at e
        obtain ⟨z, hz, e⟩ := Option.bind_eq_some_iff.mp e
        exact ih z (clientRun_of_clientAt hJ hy hz) e
  exact run turns _ .start hx

/-- What is invoked was in the schedule. -/
theorem invoke_mem_of_clientSchedule {turns : List (Turn ι C)} {i : ι} {c : C}
    (hx : clientSchedule program h J s₀ turns = some x) (hc : .invoke i c ∈ x.1) :
    .invoke i c ∈ turns := by
  have one : ∀ {u : Turn ι C} {y z : Clients S ε σ ι C R}, clientAt program h J y u = some z →
      .invoke i c ∈ z.1 → .invoke i c ∈ y.1 ∨ u = .invoke i c := by
    intro u y z hu hz
    cases u with
    | invoke j d =>
        simp only [clientAt] at hu
        split at hu
        · cases hu
          rcases List.mem_append.mp hz with hz | hz
          · exact .inl hz
          · cases List.mem_singleton.mp hz
            exact .inr rfl
        · cases hu
    | next n =>
        simp only [clientAt] at hu
        split at hu
        · split at hu
          · cases hu
            exact .inl hz
          · cases hu
        · cases hu
          exact .inl ((List.mem_append.mp hz).resolve_right (by simp))
        · cases hu
          exact .inl ((List.mem_append.mp hz).resolve_right (by simp))
        · cases hu
  have run : ∀ (turns : List (Turn ι C)) (y : Clients S ε σ ι C R),
      turns.foldlM (clientAt program h J) y = some x → .invoke i c ∈ y.1 ∨ .invoke i c ∈ turns := by
    intro turns
    induction turns with
    | nil =>
        intro y e
        cases e
        exact .inl hc
    | cons u turns ih =>
        intro y e
        rw [List.foldlM_cons] at e
        obtain ⟨z, hz, e⟩ := Option.bind_eq_some_iff.mp e
        rcases ih z e with hm | hm
        · rcases one hz hm with hm | rfl
          · exact .inl hm
          · exact .inr List.mem_cons_self
        · exact .inr (List.mem_cons_of_mem u hm)
  exact (run turns _ hx).resolve_left (List.not_mem_nil)

end

/-! ### Simulation -/

/-- What one operation of a call can do to the atomic object: nothing, or let the call take
effect, or let it observe an answer. -/
inductive Advances (object : Atomic C A R) (c : C) : A → Phase R → A → Phase R → Prop where
  | stays (a : A) (φ : Phase R) : Advances object c a φ a φ
  | commits {a a' : A} {r : R} (h : object c a r a') : Advances object c a .waiting a' (.done r)
  | observes {a : A} {r : R} (h : object c a r a) : Advances object c a .waiting a (.seen r)

/-- What the end of a program must be: an answer it was given, or one the object gives in every
state; or an error, without effect. -/
def Settled (object : Atomic C A R) (c : C) : Except ε R → Phase R × G → Prop
  | .ok r, (φ, _) => φ.Answers r ∨ φ = .waiting ∧ ∀ a, object c a r a
  | .error _, (φ, _) => φ.Harmless

/-- The end of a program, whose answer is like the one it was given. -/
def SettledLike (like : C → R → R → Prop) (object : Atomic C A R) (c : C) :
    Except ε R → Phase R × G → Prop
  | .ok r', (φ, _) => (∃ r, φ.Answers r ∧ like c r r') ∨ φ = .waiting ∧ ∀ a, object c a r' a
  | .error _, (φ, _) => φ.Harmless

/-- The very answer it was given. -/
theorem Settled.exact {object : Atomic C A R} {c : C} {r : Except ε R} {x : Phase R × G}
    (h : Settled object c r x) : SettledLike (fun _ => Eq) object c r x := by
  cases r with
  | error e => exact h
  | ok r =>
      rcases h with hφ | hφ
      · exact .inl ⟨r, hφ, rfl⟩
      · exact .inr hφ

/-- A phase with a like answer. -/
inductive Phase.Like (like : R → R → Prop) : Phase R → Phase R → Prop where
  | waiting : Like like .waiting .waiting
  | done {r r' : R} (h : like r r') : Like like (.done r) (.done r')
  | seen {r r' : R} (h : like r r') : Like like (.seen r) (.seen r')

namespace Phase.Like
variable {like : R → R → Prop} {φ φ' : Phase R}

theorem refl (h : ∀ r, like r r) : ∀ φ : Phase R, Phase.Like like φ φ
  | .waiting => .waiting
  | .done r => .done (h r)
  | .seen r => .seen (h r)

/-- An answer like the one that was given can be given. -/
theorem answers {r r' : R} (hφ : φ.Answers r) (h : like r r') :
    ∃ φ', Phase.Like like φ φ' ∧ φ'.Answers r' := by
  cases φ with
  | waiting => exact hφ.elim
  | done q =>
      obtain rfl : q = r := hφ
      exact ⟨.done r', .done h, rfl⟩
  | seen q =>
      obtain rfl : q = r := hφ
      exact ⟨.seen r', .seen h, rfl⟩

end Phase.Like

/-- A simulation of a shared object by an atomic one. -/
structure Linear (S : Signature) (ε σ G C A R : Type) [AddCommMonoid G] where
  program : C → Prog S ε R
  exec : Moves S ε σ
  object : Atomic C A R
  may : C → S.Op → Phase R × G → Prop
  moves : C → Moves S ε (Phase R × G)
  Inv : σ → A → G → Prop
  like : C → R → R → Prop
  refl : ∀ c r, like c r r
  leaves : ∀ {c : C} {a a' : A} {r r' : R}, object c a r a' → like c r r' → object c a r' a'
  step : ∀ {c : C} {o : S.Op} {r : Except ε (S.Res o)} {s s' : σ} {a : A} {φ : Phase R} {g f : G},
    Inv s a (g + f) → may c o (φ, g) → exec o s r s' →
    ∃ φ' g' a', moves c o (φ, g) r (φ', g') ∧ Advances object c a φ a' φ' ∧ Inv s' a' (g' + f)
  drop : ∀ {s : σ} {a : A} {g f : G}, Inv s a (g + f) → Inv s a f
  settles : ∀ c, (program c).wp (moves c) (may c) (SettledLike like object c) (.waiting, 0)

namespace Linear
variable [AddCommMonoid G] (L : Linear S ε σ G C A R)

/-- An open call of the clients, the same call at the atomic object, and what its thread owns. -/
def Follows (x : ι × C × Prog S ε R) (y : (ι × C × Phase R) × G) : Prop :=
  x.1 = y.1.1 ∧ x.2.1 = y.1.2.1 ∧
    x.2.2.wp (L.moves x.2.1) (L.may x.2.1) (SettledLike L.like L.object x.2.1) (y.1.2.2, y.2)

/-- The state, the open calls of the clients, and those of the atomic object. -/
def Simulates (s : σ) (l : List (ι × C × Prog S ε R)) (a : A) (m : List (ι × C × Phase R)) :
    Prop :=
  ∃ ys : List ((ι × C × Phase R) × G), ys.map Prod.fst = m ∧ List.Forall₂ L.Follows l ys ∧
    L.Inv s a (ys.map Prod.snd).sum

/-- The open call a thread is at. -/
theorem Simulates.middle {s : σ} {a : A} {before after : List (ι × C × Prog S ε R)} {i : ι} {c : C}
    {p : Prog S ε R} {m : List (ι × C × Phase R)}
    (h : L.Simulates s (before ++ (i, c, p) :: after) a m) :
    ∃ (ys zs : List ((ι × C × Phase R) × G)) (φ : Phase R) (g : G),
      m = ys.map Prod.fst ++ (i, c, φ) :: zs.map Prod.fst ∧
      List.Forall₂ L.Follows before ys ∧ List.Forall₂ L.Follows after zs ∧
      p.wp (L.moves c) (L.may c) (SettledLike L.like L.object c) (φ, g) ∧
      L.Inv s a (g + ((ys ++ zs).map Prod.snd).sum) := by
  obtain ⟨_, rfl, hf, hI⟩ := h
  obtain ⟨ys, ⟨⟨i', c', φ⟩, g⟩, zs, rfl, hb, ⟨hi, hc, hw⟩, ha⟩ := forall₂_middle hf
  obtain rfl : i = i' := hi
  obtain rfl : c = c' := hc
  refine ⟨ys, zs, φ, g, by rw [List.map_append, List.map_cons], hb, ha, hw, ?_⟩
  rw [List.map_append, List.map_cons, Protocol.sum_middle] at hI
  rw [List.map_append]
  exact hI

theorem Simulates.put {s : σ} {a : A} {before after : List (ι × C × Prog S ε R)} {i : ι} {c : C}
    {p : Prog S ε R} {ys zs : List ((ι × C × Phase R) × G)} {φ : Phase R} {g : G}
    (hb : List.Forall₂ L.Follows before ys) (ha : List.Forall₂ L.Follows after zs)
    (hw : p.wp (L.moves c) (L.may c) (SettledLike L.like L.object c) (φ, g))
    (hI : L.Inv s a (g + ((ys ++ zs).map Prod.snd).sum)) :
    L.Simulates s (before ++ (i, c, p) :: after) a
      (ys.map Prod.fst ++ (i, c, φ) :: zs.map Prod.fst) := by
  refine ⟨ys ++ ((i, c, φ), g) :: zs, by rw [List.map_append, List.map_cons],
    List.rel_append hb (.cons ⟨rfl, rfl, hw⟩ ha), ?_⟩
  rw [List.map_append, List.map_cons, Protocol.sum_middle, ← List.map_append]
  exact hI

/-- The call is over, and what its thread owned is given up. -/
theorem Simulates.close {s : σ} {a : A} {before after : List (ι × C × Prog S ε R)}
    {ys zs : List ((ι × C × Phase R) × G)} {g : G} (hb : List.Forall₂ L.Follows before ys)
    (ha : List.Forall₂ L.Follows after zs) (hI : L.Inv s a (g + ((ys ++ zs).map Prod.snd).sum)) :
    L.Simulates s (before ++ after) a (ys.map Prod.fst ++ zs.map Prod.fst) :=
  ⟨ys ++ zs, List.map_append, List.rel_append hb ha, L.drop hI⟩

/-- The same call at the atomic object, with a like answer. -/
def LikeCall (x y : ι × C × Phase R) : Prop :=
  x.1 = y.1 ∧ x.2.1 = y.2.1 ∧ x.2.2.Like (L.like x.2.1) y.2.2

theorem likeCalls_refl (m : List (ι × C × Phase R)) : List.Forall₂ L.LikeCall m m :=
  List.forall₂_same.mpr fun x _ => ⟨rfl, rfl, .refl (L.refl x.2.1) x.2.2⟩

/-- The history, whichever of the answers that are left open the open calls will give. -/
def Histories (a₀ : A) (t : List (Event ι C R ε)) (a : A) (m : List (ι × C × Phase R)) : Prop :=
  ∀ m', List.Forall₂ L.LikeCall m m' → AtomicRun L.object a₀ t a m'

namespace Histories
variable {L} {a₀ a a' : A} {t : List (Event ι C R ε)} {before after : List (ι × C × Phase R)}
  {i : ι} {c : C} {φ φ' : Phase R} {r : R}

/-- With the answer of one call chosen. -/
theorem choose (h : L.Histories a₀ t a (before ++ (i, c, φ) :: after))
    {before' after' : List (ι × C × Phase R)} (hb : List.Forall₂ L.LikeCall before before')
    (ha : List.Forall₂ L.LikeCall after after') (hφ : φ.Like (L.like c) φ') :
    AtomicRun L.object a₀ t a (before' ++ (i, c, φ') :: after') :=
  h _ (List.rel_append hb (.cons ⟨rfl, rfl, hφ⟩ ha))

theorem advance (h : L.Histories a₀ t a (before ++ (i, c, φ) :: after))
    (hadv : Advances L.object c a φ a' φ') :
    L.Histories a₀ t a' (before ++ (i, c, φ') :: after) := by
  intro m' hm
  obtain ⟨before', ⟨i', c', φ''⟩, after', rfl, hb, ⟨hi, hc, hφ⟩, ha⟩ := forall₂_middle hm
  obtain rfl : i = i' := hi
  obtain rfl : c = c' := hc
  cases hadv with
  | stays => exact h.choose hb ha hφ
  | commits hr =>
      cases hφ with
      | done hlike => exact .commit (h.choose hb ha .waiting) (L.leaves hr hlike)
  | observes hr =>
      cases hφ with
      | seen hlike => exact .observe (h.choose hb ha .waiting) (L.leaves hr hlike)

/-- The call answers. -/
theorem answer (h : L.Histories a₀ t a (before ++ (i, c, φ) :: after))
    (hr : (∃ q, φ.Answers q ∧ L.like c q r) ∨ φ = .waiting ∧ ∀ a, L.object c a r a) :
    L.Histories a₀ (t ++ [.answer i r]) a (before ++ after) := by
  intro m' hm
  obtain ⟨before', after', rfl, hb, ha⟩ := forall₂_append hm
  rcases hr with ⟨q, hq, hlike⟩ | ⟨rfl, hr⟩
  · obtain ⟨φ', hφ, hq⟩ := Phase.Like.answers hq hlike
    exact .answer (h.choose hb ha hφ) hq
  · exact .answer (.observe (h.choose hb ha .waiting) (hr a)) rfl

end Histories

/-- **Linearizability.**  Whatever the interleaving, the clients' history is one of the atomic
object, and the invariant relates the states the two lead to. -/
theorem linearizes {s₀ s : σ} {a₀ : A} {t : List (Event ι C R ε)} {l : List (ι × C × Prog S ε R)}
    (h₀ : L.Inv s₀ a₀ 0) (h : ClientRun L.program L.exec s₀ t s l) :
    ∃ a m, AtomicRun L.object a₀ t a m ∧ L.Simulates s l a m := by
  suffices hall : ∃ a m, L.Histories a₀ t a m ∧ L.Simulates s l a m by
    obtain ⟨a, m, hr, hs⟩ := hall
    exact ⟨a, m, hr m (L.likeCalls_refl m), hs⟩
  induction h with
  | start =>
      refine ⟨a₀, [], fun m' hm => ?_, [], rfl, .nil, h₀⟩
      cases hm
      exact .start
  | invoke i c _ hi ih =>
      obtain ⟨a, _, hr, ys, rfl, hf, hI⟩ := ih
      refine ⟨a, _, fun m' hm => ?_, ((i, c, .waiting), 0) :: ys, rfl,
        .cons ⟨rfl, rfl, L.settles c⟩ hf, ?_⟩
      · obtain ⟨⟨i', c', φ⟩, m', ⟨hi', hc', hφ⟩, htail, rfl⟩ := List.forall₂_cons_left_iff.mp hm
        obtain rfl : i = i' := hi'
        obtain rfl : c = c' := hc'
        cases hφ
        refine .invoke i c (hr m' htail) fun x hx => ?_
        -- the open calls are the same on both sides
        obtain ⟨w, hw, hxw⟩ := forall₂_mem_left htail.flip hx
        obtain ⟨y, hy, rfl⟩ := List.mem_map.mp hw
        obtain ⟨z, hz, hzy⟩ := forall₂_mem_left hf.flip hy
        exact hxw.1 ▸ hzy.1 ▸ hi z hz
      · rw [List.map_cons, List.sum_cons, zero_add]
        exact hI
  | call _ hx ih =>
      obtain ⟨a, m, hr, hs⟩ := ih
      obtain ⟨ys, zs, φ, g, rfl, hb, ha, hw, hI⟩ := hs.middle
      obtain ⟨φ', g', a', hm, hadv, hI'⟩ := L.step hI hw.1 hx
      exact ⟨a', _, hr.advance hadv, Simulates.put L hb ha (hw.2 _ _ hm) hI'⟩
  | answer _ ih =>
      obtain ⟨a, m, hr, hs⟩ := ih
      obtain ⟨ys, zs, φ, g, rfl, hb, ha, hw, hI⟩ := hs.middle
      exact ⟨a, _, hr.answer hw, Simulates.close L hb ha hI⟩
  | failure e ih =>
      obtain ⟨a, m, hr, hs⟩ := ih
      obtain ⟨ys, zs, φ, g, rfl, hb, ha, hw, hI⟩ := hs.middle
      refine ⟨a, _, fun m' hm => ?_, Simulates.close L hb ha hI⟩
      obtain ⟨before', after', rfl, hb', ha'⟩ := forall₂_append hm
      exact .failure _ (hr.choose hb' ha' (.refl (L.refl _) φ)) hw

end Linear
end Support
