import Space.Support.Linearizable
import Mathlib.Data.Set.Image

/-!
# Support — Implementation

The operations of an interface `S`, each implemented by a program over another interface `T`.  A
program over `S` becomes one over `T` (`Prog.subst`), and what the implementations of several
clients do to the shared state interleaves.

* `Progress`: how far an operation is.  One without effect may have observed the answers of several
  moments; only its end says which of them it gives.
* `Implements`: a simulation, one operation of `T` at a time.  The threads own shares of a ghost, as
  in `Linearizable`.
* `Implements.refines`: every run of the clients is one in which each operation of `S` is a single
  step.
-/

namespace Support
open Prog

variable {S T : Signature} {ε σ τ G ι C R α : Type}

namespace Prog

/-- Every operation replaced by its implementation, whose error is an outcome like any other. -/
def subst (impl : (o : S.Op) → Prog T ε (S.Res o)) : Prog S ε α → Prog T ε α
  | .ret a => .ret a
  | .fail e => .fail e
  | .call o k => (impl o).attempt >>= fun r => (k r).subst impl

/-- Two things said of one program, each of its own view of the state. -/
theorem wp_both {σ₁ σ₂ : Type} {R₁ : Moves S ε σ₁} {R₂ : Moves S ε σ₂} {J₁ : S.Op → σ₁ → Prop}
    {J₂ : S.Op → σ₂ → Prop} {Q₁ : Except ε α → σ₁ → Prop} {Q₂ : Except ε α → σ₂ → Prop}
    {p : Prog S ε α} (f₁ : σ → σ₁) (f₂ : σ → σ₂) {s : σ} (h₁ : p.wp R₁ J₁ Q₁ (f₁ s))
    (h₂ : p.wp R₂ J₂ Q₂ (f₂ s)) :
    p.wp (fun o s r s' => R₁ o (f₁ s) r (f₁ s') ∧ R₂ o (f₂ s) r (f₂ s'))
      (fun o s => J₁ o (f₁ s) ∧ J₂ o (f₂ s)) (fun r s => Q₁ r (f₁ s) ∧ Q₂ r (f₂ s)) s := by
  induction p generalizing s with
  | ret a => exact ⟨h₁, h₂⟩
  | fail e => exact ⟨h₁, h₂⟩
  | call o k ih => exact ⟨⟨h₁.1, h₂.1⟩, fun r s' hr => ih r (h₁.2 r _ hr.1) (h₂.2 r _ hr.2)⟩

end Prog

/-! ### How far an operation is -/

/-- Without effect so far, with the answers observed; or after its effect. -/
inductive Progress (α : Type) where
  | waiting (seen : Set α)
  | done (r : α)

namespace Progress

/-- What one step can do to an operation that is to be a single step. -/
inductive Advances (step : τ → α → τ → Prop) : τ → Progress α → τ → Progress α → Prop
  | stays (a : τ) (φ : Progress α) : Advances step a φ a φ
  | commits {a a' : τ} {r : α} {seen : Set α} (h : step a r a') :
      Advances step a (.waiting seen) a' (.done r)
  | observes {a : τ} {r : α} {seen : Set α} (h : step a r a) :
      Advances step a (.waiting seen) a (.waiting (insert r seen))

/-- One more answer observed, if there was no effect. -/
def see (r : α) : Progress α → Progress α
  | waiting seen => waiting (insert r seen)
  | done r' => done r'

theorem see_first (r : α) : (waiting ∅ : Progress α).see r = waiting {r} :=
  congrArg waiting (insert_empty_eq r)

theorem advances_see {step : τ → α → τ → Prop} {a : τ} {r : α} (h : step a r a) (φ : Progress α) :
    Advances step a φ a (φ.see r) := by
  cases φ with
  | waiting seen => exact .observes h
  | done r' => exact .stays a _

/-- The answers an operation may end with: that of its effect, one that was observed, or one that
is given in every state. -/
def Ends (step : τ → α → τ → Prop) : Progress α → α → Prop
  | done r', r => r' = r
  | waiting seen, r => r ∈ seen ∨ ∀ a, step a r a

end Progress

/-! ### The simulation -/

/-- The operations of `S` implemented over `T`, for those that are admitted. -/
structure Implements (T S : Signature) (ε σ τ G : Type) [AddCommMonoid G] where
  impl : (o : S.Op) → Prog T ε (S.Res o)
  exec : Moves T ε σ
  object : Moves S ε τ
  admits : S.Op → Prop
  may : (c : S.Op) → T.Op → Progress (Except ε (S.Res c)) × G → Prop
  moves : (c : S.Op) → Moves T ε (Progress (Except ε (S.Res c)) × G)
  Inv : σ → τ → G → Prop
  step : ∀ {c : S.Op} {o : T.Op} {r : Except ε (T.Res o)} {s s' : σ} {a : τ}
    {φ : Progress (Except ε (S.Res c))} {g f : G},
    admits c → Inv s a (g + f) → may c o (φ, g) → exec o s r s' →
    ∃ φ' g' a', moves c o (φ, g) r (φ', g') ∧ Progress.Advances (object c) a φ a' φ' ∧
      Inv s' a' (g' + f)
  drop : ∀ {s : σ} {a : τ} {g f : G}, Inv s a (g + f) → Inv s a f
  settles : ∀ c, admits c →
    (impl c).wp (moves c) (may c) (fun r x => x.1.Ends (object c) r) (.waiting ∅, 0)

namespace Implements
variable [AddCommMonoid G] (I : Implements T S ε σ τ G) {program : C → Prog S ε R} {s₀ s s' : σ}
  {a₀ a a' : τ} {t : List (Event ι C R ε)} {i : ι} {c : C} {X Y : Set (Prog S ε R)} {g g' : G}

/-- What is left of a client inside an operation, as far as that is decided. -/
def Choices (o : S.Op) (k : Except ε (S.Res o) → Prog S ε R) :
    Progress (Except ε (S.Res o)) → Set (Prog S ε R)
  | .waiting seen => insert (.call o k) (k '' seen)
  | .done r => {k r}

/-- What is left of a thread, and of its client. -/
inductive Tracks : Prog T ε R → Set (Prog S ε R) → G → Prop
  | between {p : Prog S ε R} (hp : p.Uses I.admits) : Tracks (p.subst I.impl) {p} 0
  | within {o : S.Op} {k : Except ε (S.Res o) → Prog S ε R} {q : Prog T ε (S.Res o)}
      {φ : Progress (Except ε (S.Res o))} {g : G} (ho : I.admits o)
      (hk : ∀ r, (k r).Uses I.admits)
      (hq : q.wp (I.moves o) (I.may o) (fun r x => x.1.Ends (I.object o) r) (φ, g)) :
      Tracks (q.attempt >>= fun r => (k r).subst I.impl) (Choices o k φ) g

/-- The same, of a thread that is about to do something. -/
inductive Rests : Prog T ε R → Set (Prog S ε R) → G → Prop
  | ret (r : R) : Rests (.ret r) {.ret r} 0
  | fail (e : ε) : Rests (.fail e) {.fail e} 0
  | call {o : S.Op} {k : Except ε (S.Res o) → Prog S ε R} {o' : T.Op}
      {q : Except ε (T.Res o') → Prog T ε (S.Res o)} {φ : Progress (Except ε (S.Res o))} {g : G}
      (ho : I.admits o) (hk : ∀ r, (k r).Uses I.admits)
      (hq : (Prog.call o' q).wp (I.moves o) (I.may o) (fun r x => x.1.Ends (I.object o) r) (φ, g)) :
      Rests (.call o' fun r => (q r).attempt >>= fun r => (k r).subst I.impl) (Choices o k φ) g

theorem Tracks.nonempty {p : Prog T ε R} (h : I.Tracks p X g) : X.Nonempty := by
  cases h with
  | between => exact Set.singleton_nonempty _
  | @within o k q φ g =>
      cases φ with
      | waiting seen => exact Set.insert_nonempty _ _
      | done r => exact Set.singleton_nonempty _

/-- An open call: the clients it may be, and what its thread owns. -/
abbrev Open (S : Signature) (ε ι C R G : Type) := (ι × C × Set (Prog S ε R)) × G

/-- A thread and its open call. -/
def Follows (x : ι × C × Prog T ε R) (y : Open S ε ι C R G) : Prop :=
  x.1 = y.1.1 ∧ x.2.1 = y.1.2.1 ∧ I.Tracks x.2.2 y.1.2.2 y.2

/-- One of the clients an open call may be. -/
def Picks (y : Open S ε ι C R G) (x : ι × C × Prog S ε R) : Prop :=
  x.1 = y.1.1 ∧ x.2.1 = y.1.2.1 ∧ x.2.2 ∈ y.1.2.2

/-- Whichever clients the open calls are, there is a run that leads there. -/
structure Simulates (program : C → Prog S ε R) (a₀ : τ) (t : List (Event ι C R ε)) (s : σ)
    (l : List (ι × C × Prog T ε R)) (a : τ) (ys : List (Open S ε ι C R G)) : Prop where
  follows : List.Forall₂ I.Follows l ys
  inv : I.Inv s a (ys.map Prod.snd).sum
  runs : ∀ m, List.Forall₂ Picks ys m → ClientRun program I.object a₀ t a m

/-- The same, seen from one of the threads. -/
structure At (program : C → Prog S ε R) (a₀ : τ) (t : List (Event ι C R ε)) (s : σ) (a : τ)
    (ys zs : List (Open S ε ι C R G)) (i : ι) (c : C) (X : Set (Prog S ε R)) (g : G) : Prop where
  inv : I.Inv s a (g + ((ys ++ zs).map Prod.snd).sum)
  runs : ∀ {before after : List (ι × C × Prog S ε R)} {p : Prog S ε R},
    List.Forall₂ Picks ys before → List.Forall₂ Picks zs after → p ∈ X →
      ClientRun program I.object a₀ t a (before ++ (i, c, p) :: after)

variable {I} {ys zs : List (Open S ε ι C R G)}

namespace At

theorem mono (h : I.At program a₀ t s a ys zs i c X g) (hY : Y ⊆ X) :
    I.At program a₀ t s a ys zs i c Y g :=
  ⟨h.inv, fun hb ha hp => h.runs hb ha (hY hp)⟩

theorem drop (h : I.At program a₀ t s a ys zs i c X g) : I.At program a₀ t s a ys zs i c X 0 :=
  ⟨by rw [zero_add]; exact I.drop h.inv, h.runs⟩

/-- The operation takes place. -/
theorem executes {o : S.Op} {k : Except ε (S.Res o) → Prog S ε R} {r : Except ε (S.Res o)}
    (h : I.At program a₀ t s a ys zs i c X g) (hX : .call o k ∈ X) (hc : I.object o a r a')
    (hI : I.Inv s' a' (g' + ((ys ++ zs).map Prod.snd).sum)) :
    I.At program a₀ t s' a' ys zs i c {k r} g' :=
  ⟨hI, fun hb ha hp => Set.mem_singleton_iff.mp hp ▸ .call (h.runs hb ha hX) hc⟩

/-- It may take place, without effect. -/
theorem observes {o : S.Op} {k : Except ε (S.Res o) → Prog S ε R} {r : Except ε (S.Res o)}
    (h : I.At program a₀ t s a ys zs i c X g) (hX : .call o k ∈ X) (hc : I.object o a r a) :
    I.At program a₀ t s a ys zs i c (insert (k r) X) g :=
  ⟨h.inv, fun hb ha hp => (Set.mem_insert_iff.mp hp).elim
    (fun e => e ▸ .call (h.runs hb ha hX) hc) (h.runs hb ha)⟩

/-- The operation is over. -/
theorem ends {o : S.Op} {k : Except ε (S.Res o) → Prog S ε R} {φ : Progress (Except ε (S.Res o))}
    {r : Except ε (S.Res o)} (h : I.At program a₀ t s a ys zs i c (Choices o k φ) g)
    (hr : φ.Ends (I.object o) r) : I.At program a₀ t s a ys zs i c {k r} 0 := by
  cases φ with
  | done r' =>
      obtain rfl : r' = r := hr
      exact h.drop
  | waiting seen =>
      rcases hr with hr | hr
      · refine (h.mono (Set.singleton_subset_iff.mpr ?_)).drop
        exact Set.mem_insert_of_mem _ (Set.mem_image_of_mem k hr)
      · exact (h.executes (Set.mem_insert _ _) (hr a) h.inv).drop

/-- One step inside the operation. -/
theorem advances {o : S.Op} {k : Except ε (S.Res o) → Prog S ε R}
    {φ φ' : Progress (Except ε (S.Res o))}
    (h : I.At program a₀ t s a ys zs i c (Choices o k φ) g)
    (hφ : Progress.Advances (I.object o) a φ a' φ')
    (hI : I.Inv s' a' (g' + ((ys ++ zs).map Prod.snd).sum)) :
    I.At program a₀ t s' a' ys zs i c (Choices o k φ') g' := by
  cases hφ with
  | stays => exact ⟨hI, h.runs⟩
  | commits hc => exact h.executes (Set.mem_insert _ _) hc hI
  | @observes r seen hc =>
      have hall : Choices o k (.waiting (insert r seen)) =
          insert (k r) (Choices o k (.waiting seen)) := by
        rw [Choices, Choices, Set.image_insert_eq, Set.insert_comm]
      rw [hall]
      exact ⟨hI, (h.observes (Set.mem_insert _ _) hc).runs⟩

/-- Inside an operation: it calls something, or it is over. -/
theorem rests_within {o : S.Op} {k : Except ε (S.Res o) → Prog S ε R} {q : Prog T ε (S.Res o)}
    {φ : Progress (Except ε (S.Res o))} (ho : I.admits o) (hk : ∀ r, (k r).Uses I.admits)
    (hq : q.wp (I.moves o) (I.may o) (fun r x => x.1.Ends (I.object o) r) (φ, g))
    (h : I.At program a₀ t s a ys zs i c (Choices o k φ) g)
    (hrest : ∀ r, I.At program a₀ t s a ys zs i c {k r} 0 →
      ∃ Y g', I.At program a₀ t s a ys zs i c Y g' ∧ I.Rests ((k r).subst I.impl) Y g') :
    ∃ Y g', I.At program a₀ t s a ys zs i c Y g' ∧
      I.Rests (q.attempt >>= fun r => (k r).subst I.impl) Y g' := by
  cases q with
  | ret v => exact hrest (.ok v) (h.ends hq)
  | fail e => exact hrest (.error e) (h.ends hq)
  | call o' q => exact ⟨_, g, h, .call ho hk hq⟩

/-- Between two operations. -/
theorem rests_between {p : Prog S ε R} (hp : p.Uses I.admits)
    (h : I.At program a₀ t s a ys zs i c {p} 0) :
    ∃ Y g', I.At program a₀ t s a ys zs i c Y g' ∧ I.Rests (p.subst I.impl) Y g' := by
  induction p with
  | ret r => exact ⟨_, _, h, .ret r⟩
  | fail e => exact ⟨_, _, h, .fail e⟩
  | call o k ih =>
      refine rests_within hp.1 hp.2 (I.settles o hp.1) (h.mono ?_) fun r hr => ih r (hp.2 r) hr
      rw [Choices, Set.image_empty, insert_empty_eq]

/-- **What a thread is about to do.** -/
theorem rests {p : Prog T ε R} (hp : I.Tracks p X g) (h : I.At program a₀ t s a ys zs i c X g) :
    ∃ Y g', I.At program a₀ t s a ys zs i c Y g' ∧ I.Rests p Y g' := by
  cases hp with
  | between hp => exact rests_between hp h
  | within ho hk hq => exact rests_within ho hk hq h fun r hr => rests_between (hk r) hr

end At

namespace Simulates
variable {l before after : List (ι × C × Prog T ε R)} {p : Prog T ε R}

/-- The open call a thread is at. -/
theorem focus (h : I.Simulates program a₀ t s (before ++ (i, c, p) :: after) a ys) :
    ∃ ys zs X g, List.Forall₂ I.Follows before ys ∧ List.Forall₂ I.Follows after zs ∧
      I.Tracks p X g ∧ I.At program a₀ t s a ys zs i c X g := by
  obtain ⟨ys, ⟨⟨i', c', X⟩, g⟩, zs, rfl, hb, ⟨hi, hc, hp⟩, ha⟩ := forall₂_middle h.follows
  obtain rfl : i = i' := hi
  obtain rfl : c = c' := hc
  refine ⟨ys, zs, X, g, hb, ha, hp, ?_, fun hb ha hp =>
    h.runs _ (List.rel_append hb (.cons ⟨rfl, rfl, hp⟩ ha))⟩
  have hI := h.inv
  rw [List.map_append, List.map_cons, Protocol.sum_middle] at hI
  rw [List.map_append]
  exact hI

theorem put (hb : List.Forall₂ I.Follows before ys) (ha : List.Forall₂ I.Follows after zs)
    (hp : I.Tracks p X g) (h : I.At program a₀ t s a ys zs i c X g) :
    I.Simulates program a₀ t s (before ++ (i, c, p) :: after) a (ys ++ ((i, c, X), g) :: zs) := by
  refine ⟨List.rel_append hb (.cons ⟨rfl, rfl, hp⟩ ha), ?_, fun m hm => ?_⟩
  · rw [List.map_append, List.map_cons, Protocol.sum_middle, ← List.map_append]
    exact h.inv
  · obtain ⟨b, ⟨i', c', p'⟩, d, rfl, hb, ⟨hi, hc, hX⟩, hd⟩ := forall₂_middle hm
    obtain rfl : i' = i := hi
    obtain rfl : c' = c := hc
    exact h.runs hb hd hX

/-- The call is over, and what its thread owned is given up. -/
theorem close {e : Event ι C R ε} (hb : List.Forall₂ I.Follows before ys)
    (ha : List.Forall₂ I.Follows after zs) (h : I.At program a₀ t s a ys zs i c X g)
    (hruns : ∀ {b d}, List.Forall₂ Picks ys b → List.Forall₂ Picks zs d →
      ClientRun program I.object a₀ (t ++ [e]) a (b ++ d)) :
    I.Simulates program a₀ (t ++ [e]) s (before ++ after) a (ys ++ zs) := by
  refine ⟨List.rel_append hb ha, I.drop h.inv, fun m hm => ?_⟩
  rw [← List.take_append_drop ys.length m]
  exact hruns (List.forall₂_take_append m ys zs hm.flip).flip
    (List.forall₂_drop_append m ys zs hm.flip).flip

/-- The clients, each one of those it may be. -/
theorem picks (h : List.Forall₂ I.Follows l ys) : ∃ m, List.Forall₂ Picks ys m ∧
    m.map (fun x => (x.1, x.2.1)) = l.map fun x => (x.1, x.2.1) := by
  induction h with
  | nil => exact ⟨[], .nil, rfl⟩
  | @cons x y _ _ hxy _ ih =>
      obtain ⟨m, hm, e⟩ := ih
      obtain ⟨p, hp⟩ := Tracks.nonempty I hxy.2.2
      refine ⟨(y.1.1, y.1.2.1, p) :: m, .cons ⟨rfl, rfl, hp⟩ hm, ?_⟩
      rw [List.map_cons, List.map_cons, e, hxy.1, hxy.2.1]

end Simulates

/-- **Refinement.**  Whatever the interleaving of what the implementations do, the clients' history
is one in which each operation is a single step, and the invariant relates the states. -/
theorem refines {l : List (ι × C × Prog T ε R)} (h₀ : I.Inv s₀ a₀ 0)
    (hadmits : ∀ i c, .invoke i c ∈ t → (program c).Uses I.admits)
    (h : ClientRun (fun c => (program c).subst I.impl) I.exec s₀ t s l) :
    ∃ a m g, ClientRun program I.object a₀ t a m ∧ I.Inv s a g ∧
      m.map (fun x => (x.1, x.2.1)) = l.map fun x => (x.1, x.2.1) := by
  suffices hsim : ∃ a ys, I.Simulates program a₀ t s l a ys by
    obtain ⟨a, ys, hsim⟩ := hsim
    obtain ⟨m, hm, e⟩ := Simulates.picks hsim.follows
    exact ⟨a, m, _, hsim.runs m hm, hsim.inv, e⟩
  induction h with
  | start => exact ⟨a₀, [], .nil, h₀, fun m hm => by cases hm; exact .start⟩
  | @invoke t s l i c _ hi ih =>
      obtain ⟨a, ys, hsim⟩ := ih fun i c h => hadmits i c (List.mem_append_left _ h)
      have hc := hadmits i c (List.mem_append_right _ List.mem_cons_self)
      refine ⟨a, ((i, c, {program c}), 0) :: ys, .cons ⟨rfl, rfl, .between hc⟩ hsim.follows, ?_,
        fun m hm => ?_⟩
      · rw [List.map_cons, List.sum_cons, zero_add]
        exact hsim.inv
      · obtain ⟨⟨i', c', p⟩, m', ⟨hi', hc', hp⟩, hm', rfl⟩ := List.forall₂_cons_left_iff.mp hm
        obtain rfl : i' = i := hi'
        obtain rfl : c' = c := hc'
        obtain rfl : p = program c' := hp
        refine .invoke i' c' (hsim.runs m' hm') fun x hx => ?_
        -- the open calls are the same on both sides
        obtain ⟨y, hy, hyx⟩ := forall₂_mem_left hm'.flip hx
        obtain ⟨z, hz, hzy⟩ := forall₂_mem_left hsim.follows.flip hy
        rw [hyx.1, ← hzy.1]
        exact hi z hz
  | call _ hx ih =>
      obtain ⟨a, _, hsim⟩ := ih hadmits
      obtain ⟨ys, zs, X, g, hb, ha, hp, hat⟩ := hsim.focus
      obtain ⟨Y, g, hat, hrests⟩ := hat.rests hp
      cases hrests with
      | call ho hk hq =>
          obtain ⟨φ', g', a', hmoves, hadv, hI⟩ := I.step ho hat.inv hq.1 hx
          exact ⟨a', _, .put hb ha (.within ho hk (hq.2 _ _ hmoves)) (hat.advances hadv hI)⟩
  | answer _ ih =>
      obtain ⟨a, _, hsim⟩ := ih fun i c h => hadmits i c (List.mem_append_left _ h)
      obtain ⟨ys, zs, X, g, hb, ha, hp, hat⟩ := hsim.focus
      obtain ⟨Y, g, hat, hrests⟩ := hat.rests hp
      cases hrests
      exact ⟨a, _, .close hb ha hat fun hb ha => .answer (hat.runs hb ha rfl)⟩
  | failure _ ih =>
      obtain ⟨a, _, hsim⟩ := ih fun i c h => hadmits i c (List.mem_append_left _ h)
      obtain ⟨ys, zs, X, g, hb, ha, hp, hat⟩ := hsim.focus
      obtain ⟨Y, g, hat, hrests⟩ := hat.rests hp
      cases hrests
      exact ⟨a, _, .close hb ha hat fun hb ha => .failure (hat.runs hb ha rfl)⟩

end Implements
end Support
