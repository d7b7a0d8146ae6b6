import Space.Native.Steps
import Space.Support.Lists

/-!
# Native — StepsRegistry

The operations of the registry, the removal of a segment, and the key manager: each keeps the
invariant.
-/

namespace Space
open Support

variable {P : Primitives} {D : Discipline} {w : World P} {T : Ghost}

namespace World

/-- Tokens that may be forgotten, forgotten. -/
theorem Inv.dropTokens {R : Ghost} (h : Inv D w (R + T)) (hR : ∀ τ ∈ R, τ.Harmless) :
    Inv D w T := by
  induction R using Multiset.induction with
  | empty => rwa [zero_add] at h
  | cons τ R ih =>
      rw [Multiset.cons_add] at h
      have hτ := hR τ (Multiset.mem_cons_self _ _)
      refine ih ?_ fun τ' hτ' => hR τ' (Multiset.mem_cons_of_mem hτ')
      cases τ with
      | knows x i => exact h.dropToken rfl (fun _ => rfl) rfl fun _ _ => by simp
      | reg x i => exact h.dropToken rfl (fun _ => rfl) rfl fun _ _ => by simp
      | listed x => exact h.dropToken rfl (fun _ => rfl) rfl fun _ _ => by simp
      | absent x => exact h.dropToken rfl (fun _ => rfl) rfl fun _ _ => by simp
      | _ => exact hτ.elim

theorem Inv.filter (h : Inv D w T) {p : Token → Prop} [DecidablePred p]
    (hp : ∀ τ ∈ T, ¬ p τ → τ.Harmless) : Inv D w (T.filter p) := by
  refine Inv.dropTokens (R := T.filter fun τ => ¬ p τ) ?_ fun τ hτ => ?_
  · rwa [add_comm, Multiset.filter_add_not]
  · obtain ⟨hτ, hn⟩ := Multiset.mem_filter.mp hτ
    exact hp τ hτ hn

/-- Tokens that follow from the state. -/
theorem Inv.addTokens (h : Inv D w T) {R : Ghost}
    (hR : ∀ τ ∈ R, w.Holds D T τ ∧ τ.claims = 0 ∧ (∀ x, τ.weight x = 0) ∧ τ.isTxn = false) :
    Inv D w (R + T) := by
  have hcl : Ghost.claims R = 0 := by
    refine Multiset.eq_zero_of_forall_notMem fun x hx => ?_
    obtain ⟨τ, hτ, hx⟩ := Ghost.mem_claims.mp hx
    rw [(hR τ hτ).2.1] at hx
    exact Multiset.notMem_zero x hx
  have hw : ∀ x, Ghost.weight x R = 0 := fun x =>
    Multiset.sum_eq_zero fun n hn => by
      obtain ⟨τ, hτ, rfl⟩ := Multiset.mem_map.mp hn
      exact (hR τ hτ).2.2.1 x
  have htx : Ghost.txns R = 0 := Multiset.countP_eq_zero.mpr fun τ hτ => by simp [(hR τ hτ).2.2.2]
  have hmem : ∀ {τ}, τ ∈ T → τ ∈ R + T := fun k => Multiset.mem_add.mpr (.inr k)
  refine h.retoken (by simp [hcl]) (by simp [hw]) (by simp [htx]) (fun x _ _ _ _ k => ?_)
    (fun x _ _ k => ?_) fun τ hτ => ?_
  · refine k.imp (fun k => by simpa [hcl] using k) (.imp hmem hmem)
  · exact k.imp (fun ⟨hsh, k⟩ => ⟨hsh, hmem k⟩) hmem
  · rcases Multiset.mem_add.mp hτ with hτ | hτ
    · exact .inr (hR τ hτ).1
    · exact .inl hτ

/-! ### Saving the registry -/

theorem onDisk_save {s : Store P} (h : OnDisk s) {reg : CapsuleRegistry}
    (hc : ∀ hash x, reg.contentStore.lookup hash = some x → x.val < reg.nextSegmentId)
    (hk : ∀ id c, reg.capsules.lookup id = some c → ∀ x ∈ c.segments, x.val < reg.nextSegmentId) :
    OnDisk { s with registry := reg.save } where
  map := h.map
  capsules := fun _ => rfl
  content := rfl
  next := Nat.le_refl _
  contentLt := hc
  capsuleLt := hk

theorem Inv.content_lt (h : Inv D w T) {hash : ContentHash} {x : SegmentId}
    (hc : w.content hash = some x) : x.val < w.next := by
  obtain ⟨-, s, hs, -⟩ := h.content hash x hc
  exact (h.keyed x s hs).2

theorem Inv.capsule_lt (h : Inv D w T) {id : CapsuleId} {c : Capsule} (hc : w.cap id = some c)
    {x : SegmentId} (hx : x ∈ c.segments) : x.val < w.next := by
  obtain ⟨infos, hk, -⟩ := h.capsules id c hc
  obtain ⟨i, -, hi⟩ := forall₂_mem_left hk hx
  exact hi.lt

/-! ### The content store -/

/-- A registered hash. -/
def registered (w : World P) (hash : ContentHash) (x : SegmentId) : World P :=
  w.setRegistry (w.store.registry.registerContent hash x)

theorem content_registered (w : World P) (hash hash' : ContentHash) (x : SegmentId) :
    (w.registered hash x).content hash' = if hash' = hash then some x else w.content hash' :=
  Table.lookup_insert _ _ _ _

open Classical in
/-- The token of a registered segment no capsule lists, for a single thread. -/
noncomputable def regs (D : Discipline) (x : SegmentId) (hash : ContentHash) : Ghost :=
  if D.solo then {.reg x hash} else 0

theorem mem_regs {x : SegmentId} {hash : ContentHash} {τ : Token} :
    τ ∈ regs D x hash ↔ D.solo ∧ τ = .reg x hash := by
  unfold regs; split <;> simp [*]

theorem claims_regs (x : SegmentId) (hash : ContentHash) : (regs D x hash).claims = 0 := by
  unfold regs; split <;> rfl

theorem weight_regs (x y : SegmentId) (hash : ContentHash) : (regs D x hash).weight y = 0 := by
  unfold regs; split <;> rfl

theorem txns_regs (x : SegmentId) (hash : ContentHash) : (regs D x hash).txns = 0 := by
  unfold regs; split <;> rfl

/-- Registering a segment nobody else knows of, under its hash. -/
theorem Inv.register {s : Segment} {d : Bytes} {hash : ContentHash} (h : Inv D w (.own s d ::ₘ T))
    (hh : s.contentHash = some hash) (hl : D.legit ⟨s.form, d⟩)
    (ha : D.solo → w.content hash = none) (hn : .absent hash ∉ T) :
    Inv D (w.registered hash s.id) (.knows s.id ⟨s.form, d⟩ ::ₘ
      (Multiset.replicate s.refCount (.ref s.id) + (regs D s.id hash + T))) := by
  obtain ⟨hs, hp, h1, hocc⟩ := h.tokens _ (Multiset.mem_cons_self _ _)
  set T' : Ghost := .knows s.id ⟨s.form, d⟩ ::ₘ
    (Multiset.replicate s.refCount (.ref s.id) + (regs D s.id hash + T)) with hT'
  have hcl : T'.claims = T.claims := by simp [hT', Ghost.claims_replicate_ref, claims_regs]
  have hcl' : Ghost.claims (.own s d ::ₘ T) = s.id ::ₘ T.claims := by simp
  have hnd := h.claimsNodup
  rw [hcl', Multiset.nodup_cons] at hnd
  have hself : s.id ∈ Ghost.claims (.own s d ::ₘ T) := by
    rw [hcl']; exact Multiset.mem_cons_self _ _
  have hw : ∀ y, T'.weight y = Ghost.weight y (.own s d ::ₘ T) := fun y => by
    simp [hT', Ghost.weight_replicate_ref, weight_regs]
  have htx : T'.txns = Ghost.txns (.own s d ::ₘ T) := by
    simp [hT', Ghost.txns_replicate_ref, txns_regs]
  have hsub : ∀ x ∈ T'.claims, x ∈ Ghost.claims (.own s d ::ₘ T) := fun x hx => by
    rw [hcl']; exact Multiset.mem_cons_of_mem (hcl ▸ hx)
  have hmem : ∀ τ ∈ T, τ ∈ T' := fun τ hτ => by simp [hT', hτ]
  have hcont : ∀ hsh y, (w.registered hash s.id).content hsh = some y →
      hsh = hash ∧ y = s.id ∨ w.content hsh = some y := fun hsh y hy => by
    rw [content_registered] at hy
    split at hy
    · next e => exact .inl ⟨e, (Option.some.inj hy).symm⟩
    · exact .inr hy
  have E : Evolves w (.own s d ::ₘ T) (w.registered hash s.id) T' := {
    next := Nat.le_refl _
    free := fun y _ hy hy' => hy (hsub y hy')
    payload := fun _ _ _ => rfl
    form := fun y _ _ s' hs' => ⟨s', hs', rfl⟩
    refs := fun _ _ _ h0 => h0
    content := fun hsh y hy => by
      rcases hcont hsh y hy with ⟨-, rfl⟩ | hy
      · exact .inr hself
      · exact .inl hy }
  exact {
    refs := fun y => by rw [hw]; exact h.refs y
    bounded := fun t y => by rw [hw]; exact h.bounded t y
    keyed := h.keyed
    extent := fun y s' hs' => ⟨(h.extent y s' hs').len, (h.extent y s' hs').inside,
      (h.extent y s' hs').stored⟩
    dedup := h.dedup
    legit := fun y s' hs' hy => by
      by_cases e : y = s.id
      · subst e
        have hs' : w.seg s.id = some s' := hs'
        rw [hs] at hs'; cases hs'
        rw [show (w.registered hash s.id).payload s.id = d from hp]; exact hl
      · exact h.legit y s' hs' (by rw [hcl', Multiset.mem_cons, not_or]; exact ⟨e, hcl ▸ hy⟩)
    content := fun hsh y hy => by
      rcases hcont hsh y hy with ⟨rfl, rfl⟩ | hy
      · exact ⟨hcl ▸ hnd.1, s, hs, hh⟩
      · exact ⟨fun k => (h.content hsh y hy).1 (hsub y k), (h.content hsh y hy).2⟩
    indexed := fun hso y s' hsh h₁ h₂ => by
      rw [content_registered]
      by_cases e : y = s.id
      · subst e
        have h₁ : w.seg s.id = some s' := h₁
        rw [hs] at h₁; cases h₁
        rw [hh] at h₂; cases h₂
        exact .inl (if_pos rfl)
      refine (h.indexed hso y s' hsh h₁ h₂).imp (fun k => ?_) fun k => ?_
      · rw [if_neg]
        · exact k
        · rintro rfl; rw [ha hso] at k; cases k
      refine k.imp (fun k => ?_) (.imp (fun k => ?_) fun k => ?_)
      · rw [hcl', Multiset.mem_cons] at k
        exact hcl ▸ k.resolve_left e
      · exact hmem _ (Ghost.mem_of_mem_cons k (by simp))
      · exact hmem _ (Ghost.mem_of_mem_cons k (by simp))
    capsules := fun id c hc => (h.capsules id c hc).evolve E rfl rfl
    claimsNodup := hcl ▸ hnd.2
    claimsLt := fun x hx => h.claimsLt x (hsub x hx)
    tokens := fun τ hτ => by
      rcases Multiset.mem_cons.mp hτ with rfl | hτ
      · refine ⟨(h.keyed _ s hs).2, hcl ▸ hnd.1, hp, fun s' hs' => ?_⟩
        have hs' : w.seg s.id = some s' := hs'
        rw [hs] at hs'; cases hs'; rfl
      rcases Multiset.mem_add.mp hτ with hτ | hτ
      · rw [Multiset.eq_of_mem_replicate hτ]; trivial
      rcases Multiset.mem_add.mp hτ with hτ | hτ
      · obtain ⟨hso, rfl⟩ := mem_regs.mp hτ
        refine ⟨hso, ⟨(h.keyed _ s hs).2, hcl ▸ hnd.1, hocc⟩, fun s' hs' => ?_⟩
        have hs' : w.seg s.id = some s' := hs'
        rw [hs] at hs'; cases hs'; exact hh
      · refine (h.tokens τ (Multiset.mem_cons_of_mem hτ)).evolve E (fun _ _ => ⟨rfl, rfl⟩)
          (.same fun _ => rfl) (fun hsh e => ?_) fun _ => ⟨rfl, rfl⟩
        subst e
        rw [content_registered, if_neg]
        rintro rfl
        exact hn ((Multiset.mem_add.mp hτ).resolve_left fun k => by simp [mem_regs] at k)
    zero := fun y s' hs' h0 => by
      rcases h.zero y s' hs' h0 with ⟨hsh, k⟩ | k
      · exact .inl ⟨hsh, hmem _ (Ghost.mem_of_mem_cons k (by simp))⟩
      · exact .inr (hmem _ (Ghost.mem_of_mem_cons k (by simp)))
    fileEnd := fun hT => h.fileEnd (htx ▸ hT)
    oneTxn := htx ▸ h.oneTxn
    disk := onDisk_save h.disk
      (fun hsh y hy => by
        rcases hcont hsh y hy with ⟨-, rfl⟩ | hy
        · exact (h.keyed _ s hs).2
        · exact h.content_lt hy)
      fun id c hc y hy => h.capsule_lt hc hy
    keys := h.keys }

/-! ### Entries taken out, capsules entered and taken out -/

/-- **An operation of the registry that saves**, takes entries out of the content store only, and
moves references between the capsules and the tokens. -/
theorem Inv.onRegistry (h : Inv D w T) {reg : CapsuleRegistry} {w' : World P} {T' : Ghost}
    (hs : w'.store = { w.store with registry := reg.save })
    (hp : w'.ledger.payload = w.ledger.payload) (hn : reg.nextSegmentId = w.next)
    (hcl : T'.claims = T.claims) (htx : T'.txns = T.txns)
    (hw : ∀ x, w'.occ x + T'.weight x = w.occ x + T.weight x)
    (hcont : ∀ hash x, w'.content hash = some x → w.content hash = some x)
    (hidx : D.solo → ∀ x s hash, w.seg x = some s → s.contentHash = some hash →
      w.content hash = some x ∨ Hidden T x → w'.content hash = some x ∨ Hidden T' x)
    (hcap : Evolves w T w' T' → ∀ id c, w'.cap id = some c → w'.Sound D T' id c)
    (htok : Evolves w T w' T' → ∀ τ ∈ T', w'.Holds D T' τ)
    (hdy : ∀ x, Dying T x → Dying T' x) : Inv D w' T' := by
  have hseg : ∀ x, w'.seg x = w.seg x := fun x => by unfold seg; rw [hs]
  have hnext : w'.next = w.next := by unfold next; rw [hs]; exact hn
  have hpay : ∀ x, w'.payload x = w.payload x := fun x => congrFun hp x
  have hfile : w'.file = w.file := by unfold file; rw [hs]
  have hrefs : ∀ x, w'.refs x = w.refs x := fun x => refs_congr (hseg x)
  have E : Evolves w T w' T' := {
    next := Nat.le_of_eq hnext.symm
    free := fun x _ hx => hcl ▸ hx
    payload := fun x _ _ => hpay x
    form := fun x _ _ s' hs' => ⟨s', (hseg x).symm.trans hs', rfl⟩
    refs := fun x _ _ h0 => (hrefs x).trans h0
    content := fun hash x hx => .inl (hcont hash x hx) }
  exact {
    refs := fun x => by rw [hrefs, hw]; exact h.refs x
    bounded := fun t x => by rw [hw]; exact h.bounded t x
    keyed := fun x s hx => by rw [hnext]; exact h.keyed x s ((hseg x).symm.trans hx)
    extent := fun x s hx => by
      obtain ⟨h₁, h₂, h₃⟩ := h.extent x s ((hseg x).symm.trans hx)
      exact ⟨(hpay x).symm ▸ h₁, by rw [hpay, hfile]; exact h₂, by rw [hpay, hfile]; exact h₃⟩
    dedup := fun x s hx => h.dedup x s ((hseg x).symm.trans hx)
    legit := fun x s hx hf => by
      rw [hpay]; exact h.legit x s ((hseg x).symm.trans hx) (hcl ▸ hf)
    content := fun hash x hx => by
      obtain ⟨hf, s, hs', hh⟩ := h.content hash x (hcont hash x hx)
      exact ⟨hcl ▸ hf, s, (hseg x).trans hs', hh⟩
    indexed := fun hso x s hash hx hh =>
      have hx := (hseg x).symm.trans hx
      hidx hso x s hash hx hh (h.indexed hso x s hash hx hh)
    capsules := hcap E
    claimsNodup := hcl ▸ h.claimsNodup
    claimsLt := fun x hx => by rw [hnext]; exact h.claimsLt x (hcl ▸ hx)
    tokens := htok E
    zero := fun x s hx h0 => hdy x (h.zero x s ((hseg x).symm.trans hx) h0)
    fileEnd := fun hT => by rw [hfile, hs]; exact h.fileEnd (htx ▸ hT)
    oneTxn := htx ▸ h.oneTxn
    disk := by
      have hreg : w'.store.registry = reg.save := by rw [hs]
      rw [hs]
      refine onDisk_save h.disk (fun hash x hx => ?_) fun id c hc x hx => ?_
      · rw [hn]
        exact h.content_lt (hcont hash x (by unfold World.content; rw [hreg]; exact hx))
      · obtain ⟨infos, hk, -⟩ := hcap E id c (by unfold World.cap; rw [hreg]; exact hc)
        obtain ⟨i, -, hi⟩ := forall₂_mem_left hk hx
        rw [hn, ← hnext]; exact hi.lt
    keys := by rw [hs]; exact h.keys }

/-- A hash taken out of the content store, if it names the segment. -/
def deregistered (w : World P) (hash : ContentHash) (x : SegmentId) : World P :=
  w.setRegistry (w.store.registry.deregisterContent hash x).2

theorem deregistered_of_ne {hash : ContentHash} {x : SegmentId} (h : w.content hash ≠ some x) :
    w.deregistered hash x = w := by
  unfold deregistered CapsuleRegistry.deregisterContent
  rw [if_neg (show ¬ w.store.registry.contentStore.lookup hash = some x from h)]
  rfl

/-- A hash taken out of the content store. -/
def contentErased (w : World P) (hash : ContentHash) : World P :=
  w.setRegistry ({ w.store.registry with
    contentStore := w.store.registry.contentStore.erase hash } : CapsuleRegistry).save

theorem content_contentErased (w : World P) (hash hash' : ContentHash) :
    (w.contentErased hash).content hash' = if hash' = hash then none else w.content hash' :=
  Table.lookup_erase _ _ _

theorem deregistered_of_eq {hash : ContentHash} {x : SegmentId} (h : w.content hash = some x) :
    w.deregistered hash x = w.contentErased hash := by
  unfold deregistered CapsuleRegistry.deregisterContent
  rw [if_pos (show w.store.registry.contentStore.lookup hash = some x from h)]
  rfl

/-- **Deregistering** a segment that no capsule lists, under its hash: no entry names it now. -/
theorem Inv.deregister {x : SegmentId} {hash : ContentHash} {τ₀ τ₁ : Token}
    (h : Inv D w (τ₀ ::ₘ T))
    (hτ : τ₀ = .dead x (some hash) ∧ τ₁ = .bare x ∨ τ₀ = .reg x hash ∧ τ₁ = .idle x) :
    Inv D (w.deregistered hash x) (τ₁ ::ₘ T) := by
  have hcl : Ghost.claims (τ₁ ::ₘ T) = Ghost.claims (τ₀ ::ₘ T) := by
    rcases hτ with ⟨rfl, rfl⟩ | ⟨rfl, rfl⟩ <;> simp
  have hw : ∀ y, Ghost.weight y (τ₁ ::ₘ T) = Ghost.weight y (τ₀ ::ₘ T) := fun y => by
    rcases hτ with ⟨rfl, rfl⟩ | ⟨rfl, rfl⟩ <;> simp
  have htx : Ghost.txns (τ₁ ::ₘ T) = Ghost.txns (τ₀ ::ₘ T) := by
    rcases hτ with ⟨rfl, rfl⟩ | ⟨rfl, rfl⟩ <;> simp
  have hhid : ∀ {y}, Hidden (τ₀ ::ₘ T) y → Hidden (τ₁ ::ₘ T) y := fun {y} k => by
    rcases hτ with ⟨rfl, rfl⟩ | ⟨rfl, rfl⟩ <;>
      exact .cons _ (by simpa [Hidden] using k)
  have hdy : ∀ y, Dying (τ₀ ::ₘ T) y → Dying (τ₁ ::ₘ T) y := fun y k => by
    rcases hτ with ⟨rfl, rfl⟩ | ⟨rfl, rfl⟩
    · simp only [Dying, Multiset.mem_cons, Token.dead.injEq, reduceCtorEq, false_or,
        Token.bare.injEq] at k ⊢
      rcases k with ⟨hsh, ⟨rfl, -⟩ | k⟩ | k
      · exact .inr (.inl rfl)
      · exact .inl ⟨hsh, k⟩
      · exact .inr (.inr k)
    · simpa [Dying] using k
  have h₀ := h.tokens τ₀ (Multiset.mem_cons_self _ _)
  have hhash : ∀ s, w.seg x = some s → s.contentHash = some hash := by
    rcases hτ with ⟨rfl, rfl⟩ | ⟨rfl, rfl⟩
    · exact h₀.2
    · exact h₀.2.2
  by_cases e : w.content hash = some x
  · rw [deregistered_of_eq e]
    have hlook := content_contentErased w hash
    have hcont : ∀ hsh y, (w.contentErased hash).content hsh = some y →
        w.content hsh = some y := fun hsh y hy => by
      rw [hlook] at hy
      split at hy
      · cases hy
      · exact hy
    refine h.onRegistry rfl rfl rfl hcl htx (fun y => congrArg _ (hw y)) hcont ?_
      (fun E id c hc => (h.capsules id c hc).evolve E rfl rfl) (fun E τ hm => ?_) hdy
    · intro _ y s hsh hs hh k
      rcases k with k | k
      · rw [hlook]
        split
        · next e' =>
            subst e'
            rw [e] at k; cases k
            refine .inr ?_
            rcases hτ with ⟨rfl, rfl⟩ | ⟨rfl, rfl⟩ <;> simp [Hidden]
        · exact .inl k
      · exact .inr (hhid k)
    · rcases Multiset.mem_cons.mp hm with rfl | hm
      · have hgone : ∀ hsh, (w.contentErased hash).content hsh ≠ some x := fun hsh k => by
          obtain ⟨-, s, hs, hh⟩ := h.content hsh x (hcont hsh x k)
          rw [hhash s hs] at hh
          cases hh
          rw [hlook, if_pos rfl] at k
          cases k
        rcases hτ with ⟨rfl, rfl⟩ | ⟨rfl, rfl⟩
        · exact ⟨h₀.1.evolve E, hgone⟩
        · exact ⟨h₀.1, ⟨h₀.2.1.lt, hcl ▸ h₀.2.1.free, h₀.2.1.occ⟩, hgone⟩
      · refine (h.tokens τ (Multiset.mem_cons_of_mem hm)).evolve E (fun _ _ => ⟨rfl, rfl⟩)
          (.same fun _ => rfl) (fun hsh e' => ?_) fun _ => ⟨rfl, rfl⟩
        subst e'
        rw [hlook, (h.tokens _ (Multiset.mem_cons_of_mem hm)).2]
        split <;> rfl
  · rw [deregistered_of_ne e]
    refine h.retoken hcl hw htx (fun _ _ _ _ _ => hhid) (fun y _ _ => hdy y) fun τ hm => ?_
    rcases Multiset.mem_cons.mp hm with rfl | hm
    · have hgone : ∀ hsh, w.content hsh ≠ some x := fun hsh k => by
        obtain ⟨-, s, hs, hh⟩ := h.content hsh x k
        rw [hhash s hs] at hh
        cases hh
        exact e k
      rcases hτ with ⟨rfl, rfl⟩ | ⟨rfl, rfl⟩
      · exact .inr ⟨h₀.1, hgone⟩
      · exact .inr ⟨h₀.1, h₀.2.1, hgone⟩
    · exact .inl (Multiset.mem_cons_of_mem hm)

/-! ### Removing a segment -/

/-- A segment removed from the map, if it is there. -/
def removed (w : World P) (x : SegmentId) : World P := w.setNvram (w.store.nvram.removeSegment x).2

theorem removed_of_none {x : SegmentId} (h : w.seg x = none) : w.removed x = w := by
  unfold removed NvramLog.removeSegment
  rw [show w.store.nvram.segmentMap.lookup x = none from h]
  rfl

theorem removed_of_some {x : SegmentId} {s : Segment} (h : w.seg x = some s) :
    w.removed x = w.dropSegment x := by
  unfold removed NvramLog.removeSegment
  rw [show w.store.nvram.segmentMap.lookup x = some s from h]
  rfl

/-- **Removing** a segment that nothing refers to once the tokens are the new ones. -/
theorem Inv.remove (h : Inv D w T) {T' : Ghost} {x : SegmentId} (hx : x ∉ T.claims)
    (hc : ∀ hash, w.content hash ≠ some x) (ho : w.occ x = 0) (hcl : T'.claims = T.claims)
    (htx : T'.txns = T.txns) (hwx : T'.weight x = 0) (hw : ∀ y, y ≠ x → T'.weight y = T.weight y)
    (hhid : ∀ y, y ≠ x → Hidden T y → Hidden T' y) (hdy : ∀ y, y ≠ x → Dying T y → Dying T' y)
    (hmem : ∀ τ ∈ T', τ ∈ T) : Inv D (w.removed x) T' := by
  cases hs : w.seg x with
  | none =>
      rw [removed_of_none hs]
      have hne : ∀ {y s}, w.seg y = some s → y ≠ x := fun {y s} hy e => by
        rw [e, hs] at hy; cases hy
      refine h.retoken hcl (fun y => ?_) htx (fun y s hash hy _ => hhid y (hne hy))
        (fun y s hy => hdy y (hne hy)) fun τ hτ => .inl (hmem τ hτ)
      by_cases e : y = x
      · subst e; rw [hwx, (h.fresh_unreferenced hs).2]
      · exact hw y e
  | some s =>
      rw [removed_of_some hs]
      have hsome {y s'} (k : (w.dropSegment x).seg y = some s') : y ≠ x ∧ w.seg y = some s' :=
        seg_dropSegment_eq_some.mp k
      have hseg : ∀ y, y ≠ x → (w.dropSegment x).seg y = w.seg y := fun y e => by
        rw [seg_dropSegment, if_neg e]
      have E : Evolves w T (w.dropSegment x) T' := {
        next := Nat.le_refl _
        free := fun y _ hy => hcl ▸ hy
        payload := fun _ _ _ => rfl
        form := fun y _ _ s' hs' => ⟨s', (hsome hs').2, rfl⟩
        refs := fun y _ _ h0 => by rw [refs_dropSegment]; split <;> simp [h0]
        content := fun _ _ k => .inl k }
      exact {
        refs := fun y => by
          rw [refs_dropSegment]
          split
          · next e => subst e; rw [show (w.dropSegment y).occ y = 0 from ho, hwx]; rfl
          · next e => rw [hw y e]; exact h.refs y
        bounded := fun t y => by
          by_cases e : y = x
          · subst e; rw [show (w.dropSegment y).occ y = 0 from ho, hwx]; exact Nat.zero_le _
          · rw [hw y e]; exact h.bounded t y
        keyed := fun y s' hs' => h.keyed y s' (hsome hs').2
        extent := fun y s' hs' =>
          have k := h.extent y s' (hsome hs').2
          ⟨k.len, k.inside, k.stored⟩
        dedup := fun y s' hs' => h.dedup y s' (hsome hs').2
        legit := fun y s' hs' hy => h.legit y s' (hsome hs').2 (hcl ▸ hy)
        content := fun hash y hy => by
          obtain ⟨hf, s', hs', hh⟩ := h.content hash y hy
          refine ⟨hcl ▸ hf, s', (hseg y ?_).trans hs', hh⟩
          rintro rfl
          exact hc hash hy
        indexed := fun hso y s' hash hs' hh =>
          (h.indexed hso y s' hash (hsome hs').2 hh).imp_right (hhid y (hsome hs').1)
        capsules := fun id c hcap => (h.capsules id c hcap).evolve E rfl rfl
        claimsNodup := hcl ▸ h.claimsNodup
        claimsLt := hcl ▸ h.claimsLt
        tokens := fun τ hτ => by
          refine (h.tokens τ (hmem τ hτ)).evolve E (fun y hy => ⟨hseg y ?_, rfl⟩)
            (.same fun _ => rfl) (fun _ _ => rfl) fun _ => ⟨rfl, rfl⟩
          rintro rfl
          exact hx (Ghost.mem_claims.mpr ⟨τ, hmem τ hτ, hy⟩)
        zero := fun y s' hs' h0 => hdy y (hsome hs').1 (h.zero y s' (hsome hs').2 h0)
        fileEnd := fun hT => h.fileEnd (htx ▸ hT)
        oneTxn := htx ▸ h.oneTxn
        disk := onDisk_withMap h.disk
        keys := h.keys }

/-- A segment without references that the content store does not name. -/
theorem Inv.removeUnused {x : SegmentId} {τ : Token} (h : Inv D w (τ ::ₘ T))
    (hτ : τ = .bare x ∨ τ = .dead x none) : Inv D (w.removed x) T := by
  have h₀ := h.tokens τ (Multiset.mem_cons_self _ _)
  have hu : w.Unused (τ ::ₘ T) x := by rcases hτ with rfl | rfl <;> exact h₀.1
  have hr := h.refs x
  rw [hu.refs] at hr
  simp only [Ghost.weight_cons, u32Max] at hr
  refine h.remove hu.free (fun hash e => ?_) (by omega) ?_ ?_ (by omega) (fun y hy => ?_)
    (fun y hy k => ?_) (fun y hy k => ?_) fun τ' => Multiset.mem_cons_of_mem
  · obtain ⟨-, s, hs, hh⟩ := h.content hash x e
    rcases hτ with rfl | rfl
    · exact h₀.2 hash e
    · rw [h₀.2 s hs] at hh; cases hh
  · rcases hτ with rfl | rfl <;> simp
  · rcases hτ with rfl | rfl <;> simp
  · rcases hτ with rfl | rfl <;> simp
  · rcases hτ with rfl | rfl <;> simpa [Hidden, hy] using k
  · rcases hτ with rfl | rfl <;> simpa [Dying, hy] using k

theorem weight_filter_ref {x : SegmentId} (hx : x ∉ T.claims) :
    Ghost.weight x (T.filter (· ≠ .ref x)) = 0 := by
  refine Multiset.sum_eq_zero fun n hn => ?_
  obtain ⟨τ, hτ, rfl⟩ := Multiset.mem_map.mp hn
  obtain ⟨hτ, hne⟩ := Multiset.mem_filter.mp hτ
  cases τ with
  | ref y => exact if_neg fun e => hne (by rw [e])
  | own s d => exact if_neg fun e => hx (Ghost.mem_claims.mpr ⟨_, hτ, by simp [e]⟩)
  | _ => rfl

/-- Tokens of no weight at `y`, filtered out. -/
theorem weight_filter {p : Token → Prop} [DecidablePred p] {y : SegmentId} (T : Ghost)
    (hp : ∀ τ, ¬ p τ → τ.weight y = 0) : Ghost.weight y (T.filter p) = T.weight y := by
  induction T using Multiset.induction with
  | empty => rfl
  | cons τ T ih =>
      by_cases k : p τ
      · rw [Multiset.filter_cons_of_pos _ k, Ghost.weight_cons, Ghost.weight_cons, ih]
      · rw [Multiset.filter_cons_of_neg _ k, Ghost.weight_cons, hp τ k, zero_add, ih]

theorem claims_filter {p : Token → Prop} [DecidablePred p] (T : Ghost)
    (hp : ∀ τ, ¬ p τ → τ.claims = 0) : Ghost.claims (T.filter p) = T.claims := by
  induction T using Multiset.induction with
  | empty => rfl
  | cons τ T ih =>
      by_cases k : p τ
      · rw [Multiset.filter_cons_of_pos _ k, Ghost.claims_cons, Ghost.claims_cons, ih]
      · rw [Multiset.filter_cons_of_neg _ k, Ghost.claims_cons, hp τ k, zero_add, ih]

theorem txns_filter {p : Token → Prop} [DecidablePred p] (T : Ghost)
    (hp : ∀ τ, ¬ p τ → τ.isTxn = false) : Ghost.txns (T.filter p) = T.txns := by
  induction T using Multiset.induction with
  | empty => rfl
  | cons τ T ih =>
      by_cases k : p τ
      · rw [Multiset.filter_cons_of_pos _ k, Ghost.txns_cons, Ghost.txns_cons, ih]
      · rw [Multiset.filter_cons_of_neg _ k, Ghost.txns_cons, hp τ k, ih]; rfl

/-- A segment that no capsule lists and the content store does not name, with the references a
thread holds to it. -/
theorem Inv.removeIdle {x : SegmentId} (h : Inv D w (.idle x ::ₘ T)) :
    Inv D (w.removed x) (T.filter (· ≠ .ref x)) := by
  obtain ⟨-, hu, hn⟩ := h.tokens _ (Multiset.mem_cons_self _ _)
  have hx : x ∉ T.claims := by simpa using hu.free
  refine h.remove hu.free hn hu.occ ?_ ?_ (weight_filter_ref hx) (fun y hy => ?_)
    (fun y hy k => ?_) (fun y hy k => ?_) fun τ hτ =>
      Multiset.mem_cons_of_mem (Multiset.mem_of_mem_filter hτ)
  · rw [claims_filter _ fun τ k => by rw [not_not.mp k]; rfl]; simp
  · rw [txns_filter _ fun τ k => by rw [not_not.mp k]; rfl]; simp
  · rw [weight_filter _ fun τ k => by rw [not_not.mp k]; exact if_neg (Ne.symm hy)]; simp
  · have hc : Ghost.claims (T.filter (· ≠ .ref x)) = T.claims :=
      claims_filter _ fun τ k => by rw [not_not.mp k]; rfl
    simpa [Hidden, hy, hc, Multiset.mem_filter] using k
  · simpa [Dying, Multiset.mem_filter] using k

/-! ### Capsules -/

/-- A capsule entered, on behalf of a write of `data`. -/
def created (w : World P) (data : Bytes) (c : Capsule) : World P where
  store := { w.store with registry :=
    ({ w.store.registry with
      capsules := w.store.registry.capsules.insert c.id c } : CapsuleRegistry).save }
  ledger := { w.ledger with
    produced := Function.update w.ledger.produced c.id data
    contents := Function.update w.ledger.contents c.id (c.segments.map w.ledger.payload) }

theorem cap_created (w : World P) (data : Bytes) (c : Capsule) (id : CapsuleId) :
    (w.created data c).cap id = if id = c.id then some c else w.cap id :=
  Table.lookup_insert _ _ _ _

theorem occ_created {c : Capsule} (data : Bytes) (h : w.cap c.id = none) (x : SegmentId) :
    (w.created data c).occ x = c.segments.count x + w.occ x := Table.total_insert_new _ h

theorem claims_add_refs (l : List SegmentId) (T : Ghost) :
    Ghost.claims ((l.map Token.ref : Multiset Token) + T) = T.claims := by
  rw [Ghost.claims_add, Ghost.claims_refs, zero_add]

theorem txns_add_refs (l : List SegmentId) (T : Ghost) :
    Ghost.txns ((l.map Token.ref : Multiset Token) + T) = T.txns := by
  rw [Ghost.txns_add, Ghost.txns_refs, zero_add]

theorem mem_add_refs {l : List SegmentId} {T : Ghost} {τ : Token} (hn : ∀ x, τ ≠ .ref x) :
    τ ∈ (l.map Token.ref : Multiset Token) + T ↔ τ ∈ T := by
  rw [Multiset.mem_add, or_iff_right]
  intro k
  obtain ⟨x, -, rfl⟩ := List.mem_map.mp (Multiset.mem_coe.mp k)
  exact hn x rfl

theorem hidden_add_refs {l : List SegmentId} {T : Ghost} {x : SegmentId} :
    Hidden ((l.map Token.ref : Multiset Token) + T) x ↔ Hidden T x := by
  unfold Hidden
  rw [claims_add_refs, mem_add_refs (by simp), mem_add_refs (by simp)]

theorem dying_add_refs {l : List SegmentId} {T : Ghost} {x : SegmentId} :
    Dying ((l.map Token.ref : Multiset Token) + T) x ↔ Dying T x := by
  unfold Dying
  rw [mem_add_refs (by simp)]
  simp only [mem_add_refs (τ := .dead x _) (by simp)]

theorem payloads_of_known {l : List SegmentId} {infos : List Info}
    (h : List.Forall₂ (w.Known T) l infos) :
    l.map w.ledger.payload = infos.map Info.payload := by
  induction h with
  | nil => rfl
  | cons k _ ih => rw [List.map_cons, List.map_cons, ih]; congr 1; exact k.payload

/-- **Creating a capsule** hands its references over to it. -/
theorem Inv.create {c : Capsule} {data : Bytes} {infos : List Info}
    (h : Inv D w ((c.segments.map Token.ref : Multiset Token) + T)) (hnew : w.cap c.id = none)
    (hk : List.Forall₂ (w.Known T) c.segments infos) (hs : D.sound data c.policy infos)
    (hreg : ∀ x hash, .reg x hash ∉ T) (hidle : ∀ x, .idle x ∉ T) :
    Inv D (w.created data c) T := by
  have hocc := occ_created (w := w) data hnew
  refine h.onRegistry rfl rfl rfl (claims_add_refs _ _).symm (txns_add_refs _ _).symm
    (fun x => ?_) (fun _ _ k => k) (fun _ x _ _ _ _ k => k.imp_right hidden_add_refs.mp)
    (fun E id c' hc' => ?_) (fun E τ hτ => ?_) fun x => dying_add_refs.mp
  · rw [hocc, Ghost.weight_add, Ghost.weight_refs]; omega
  · rw [cap_created] at hc'
    split at hc'
    · next e =>
        cases hc'; subst e
        refine ⟨infos, hk.imp fun x i k => ⟨k.lt, k.free, k.payload, k.form⟩, ?_, ?_⟩
        · rw [show (w.created data c).ledger.produced c.id = data from Function.update_self _ _ _]
          exact hs
        · rw [show (w.created data c).ledger.contents c.id = c.segments.map w.ledger.payload from
            Function.update_self _ _ _]
          exact payloads_of_known hk
    · next e =>
        exact (h.capsules id c' hc').evolve E (Function.update_of_ne e _ _)
          (Function.update_of_ne e _ _)
  · refine (h.tokens τ (Multiset.mem_add.mpr (.inr hτ))).evolve E (fun _ _ => ⟨rfl, rfl⟩)
      ⟨fun x k h0 => ?_, fun x _ => ?_⟩ (fun _ _ => rfl) fun _ => ⟨rfl, rfl⟩
    · rw [hocc, h0, Nat.add_zero]
      refine List.count_eq_zero.mpr fun hm => ?_
      rcases k with k | rfl | ⟨hash, rfl⟩
      · obtain ⟨i, -, hi⟩ := forall₂_mem_left hk hm
        exact hi.free (Ghost.mem_claims.mpr ⟨τ, hτ, k⟩)
      · exact hidle x hτ
      · exact hreg x hash hτ
    · rw [hocc]; omega

/-- A capsule taken out. -/
def deleted (w : World P) (id : CapsuleId) : World P :=
  w.setRegistry ({ w.store.registry with
    capsules := w.store.registry.capsules.erase id } : CapsuleRegistry).save

theorem cap_deleted_eq_some {id id' : CapsuleId} {c : Capsule} :
    (w.deleted id).cap id' = some c ↔ id' ≠ id ∧ w.cap id' = some c :=
  Table.lookup_erase_eq_some

theorem occ_deleted {id : CapsuleId} {c : Capsule} (h : w.cap id = some c) (x : SegmentId) :
    w.occ x = c.segments.count x + (w.deleted id).occ x := Table.total_erase _ h

/-- **Deleting a capsule** takes its references back. -/
theorem Inv.delete {id : CapsuleId} {c : Capsule} (h : Inv D w T) (hc : w.cap id = some c)
    (hl : ∀ x, .listed x ∉ T) :
    Inv D (w.deleted id) ((c.segments.map Token.ref : Multiset Token) + T) := by
  have hocc := occ_deleted hc
  refine h.onRegistry rfl rfl rfl (claims_add_refs _ _) (txns_add_refs _ _) (fun x => ?_)
    (fun _ _ k => k) (fun _ x _ _ _ _ k => k.imp_right hidden_add_refs.mpr)
    (fun E id' c' hc' => (h.capsules id' c' (cap_deleted_eq_some.mp hc').2).evolve E rfl rfl)
    (fun E τ hτ => ?_) fun x => dying_add_refs.mpr
  · rw [hocc, Ghost.weight_add, Ghost.weight_refs]; omega
  · rcases Multiset.mem_add.mp hτ with hτ | hτ
    · obtain ⟨x, -, rfl⟩ := List.mem_map.mp (Multiset.mem_coe.mp hτ)
      trivial
    · refine (h.tokens τ hτ).evolve E (fun _ _ => ⟨rfl, rfl⟩) ⟨fun x _ h0 => ?_, ?_⟩
        (fun _ _ => rfl) fun _ => ⟨rfl, rfl⟩
      · have := hocc x
        omega
      · rintro x rfl
        exact absurd hτ (hl x)

end World

end Space
