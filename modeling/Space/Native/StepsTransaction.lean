import Space.Native.StepsRegistry

/-!
# Native — StepsTransaction

The rest of the operations: lookups, which only teach a thread something; the key manager and the
dedup counter, which the invariant does not look at; and the log transactions of a single thread.
A transaction is committed one pending segment after the other (`Inv.install`).
-/

namespace Space
open Support

variable {P : Primitives} {D : Discipline} {w : World P} {T : Ghost}

namespace World

/-! ### Lookups -/

/-- A hash that is not there. -/
theorem Inv.lookup_none (h : Inv D w T) {hash : ContentHash} (hc : w.content hash = none)
    (hs : D.solo) : Inv D w (.absent hash ::ₘ T) :=
  h.addToken ⟨hs, hc⟩ rfl (fun _ => rfl) rfl

/-- A hash that is there names a segment that is known. -/
theorem Inv.lookup_some (h : Inv D w T) {hash : ContentHash} {x : SegmentId}
    (hc : w.content hash = some x) :
    ∃ s, w.seg x = some s ∧ s.contentHash = some hash ∧ D.legit ⟨s.form, w.payload x⟩ ∧
      Inv D w (.knows x ⟨s.form, w.payload x⟩ ::ₘ T) := by
  obtain ⟨hf, s, hs, hh⟩ := h.content hash x hc
  exact ⟨s, hs, hh, h.legit x s hs hf,
    h.addToken (h.known hs hf) rfl (fun _ => rfl) rfl⟩

/-- The segments without references are being reclaimed. -/
theorem Inv.listed (h : Inv D w T) {l : List Segment} (hl : ∀ s ∈ l, ∃ x, w.seg x = some s) :
    Inv D w (((l.filter fun s => s.refCount = 0).map fun s => Token.dead s.id s.contentHash :
      Multiset Token) + T) := by
  refine h.addTokens fun τ hτ => ?_
  obtain ⟨s, hs, rfl⟩ := List.mem_map.mp (Multiset.mem_coe.mp hτ)
  obtain ⟨hs, h0⟩ := List.mem_filter.mp hs
  obtain ⟨x, hx⟩ := hl s hs
  have h0 : s.refCount = 0 := of_decide_eq_true h0
  have hid := (h.keyed x s hx).1
  refine ⟨⟨?_, fun s' hs' => ?_⟩, rfl, fun _ => rfl, rfl⟩
  · rw [hid]
    refine ⟨(h.keyed x s hx).2, ?_, (refs_of_seg hx).trans h0⟩
    rcases h.zero x s hx h0 with ⟨hash, k⟩ | k
    · exact (h.tokens _ k).1.free
    · exact (h.tokens _ k).1.free
  · rw [hid, hx] at hs'; cases hs'; rfl

/-! ### What the invariant does not look at -/

/-- Another key manager with the same keys, and other dedup counters. -/
theorem Inv.congr (h : Inv D w T) {w' : World P} (hl : w'.ledger = w.ledger)
    (hn : w'.store.nvram = w.store.nvram)
    (hc : w'.store.registry.contentStore = w.store.registry.contentStore)
    (hi : w'.store.registry.nextSegmentId = w.store.registry.nextSegmentId)
    (hsv : w'.store.registry.saved = w.store.registry.saved)
    (hcap : ∀ id, (w'.cap id).map Capsule.undeduped = (w.cap id).map Capsule.undeduped)
    (hocc : ∀ x, w'.occ x = w.occ x)
    (hk : w'.store.keyManager.map KeyManager.derive = w.store.keyManager.map KeyManager.derive) :
    Inv D w' T := by
  have hseg : ∀ x, w'.seg x = w.seg x := fun x => by unfold seg; rw [hn]
  have hnext : w'.next = w.next := hi
  have hpay : ∀ x, w'.payload x = w.payload x := fun x => by unfold payload; rw [hl]
  have hfile : w'.file = w.file := by unfold file; rw [hn]
  have hcont : ∀ hash, w'.content hash = w.content hash := fun hash => by
    unfold World.content; rw [hc]
  have hrefs : ∀ x, w'.refs x = w.refs x := fun x => refs_congr (hseg x)
  have hcap' {id c} (k : w'.cap id = some c) :
      ∃ c', w.cap id = some c' ∧ c'.undeduped = c.undeduped := by
    have e := hcap id
    rw [k] at e
    obtain ⟨c', hc', e'⟩ := Option.map_eq_some_iff.mp e.symm
    exact ⟨c', hc', e'⟩
  have E : Evolves w T w' T := {
    next := Nat.le_of_eq hnext.symm
    free := fun _ _ hx => hx
    payload := fun x _ _ => hpay x
    form := fun x _ _ s' hs' => ⟨s', (hseg x).symm.trans hs', rfl⟩
    refs := fun x _ _ h0 => (hrefs x).trans h0
    content := fun hash x hx => .inl ((hcont hash).symm.trans hx) }
  exact {
    refs := fun x => by rw [hrefs, hocc]; exact h.refs x
    bounded := fun t x => by rw [hocc]; exact h.bounded t x
    keyed := fun x s hx => by rw [hnext]; exact h.keyed x s ((hseg x).symm.trans hx)
    extent := fun x s hx => by
      obtain ⟨h₁, h₂, h₃⟩ := h.extent x s ((hseg x).symm.trans hx)
      exact ⟨(hpay x).symm ▸ h₁, by rw [hpay, hfile]; exact h₂, by rw [hpay, hfile]; exact h₃⟩
    dedup := fun x s hx => h.dedup x s ((hseg x).symm.trans hx)
    legit := fun x s hx hf => by rw [hpay]; exact h.legit x s ((hseg x).symm.trans hx) hf
    content := fun hash x hx => by
      obtain ⟨hf, s, hs, hh⟩ := h.content hash x ((hcont hash).symm.trans hx)
      exact ⟨hf, s, (hseg x).trans hs, hh⟩
    indexed := fun hso x s hash hx hh => by
      rw [hcont]; exact h.indexed hso x s hash ((hseg x).symm.trans hx) hh
    capsules := fun id c k => by
      obtain ⟨c', hc', e⟩ := hcap' k
      obtain ⟨infos, h₁, h₂, h₃⟩ := (h.capsules id c' hc').evolve E
        (by rw [hl]) (by rw [hl])
      have e₁ : c'.segments = c.segments := show c'.undeduped.segments = c.undeduped.segments by
        rw [e]
      have e₂ : c'.policy = c.policy := show c'.undeduped.policy = c.undeduped.policy by rw [e]
      exact ⟨infos, e₁ ▸ h₁, e₂ ▸ h₂, h₃⟩
    claimsNodup := h.claimsNodup
    claimsLt := fun x hx => by rw [hnext]; exact h.claimsLt x hx
    tokens := fun τ hτ => by
      refine (h.tokens τ hτ).evolve E (fun x _ => ⟨hseg x, hpay x⟩)
        (.same hocc) (fun hash _ => hcont hash) fun _ => ⟨?_, hfile⟩
      rw [hn]
    zero := fun x s hx h0 => h.zero x s ((hseg x).symm.trans hx) h0
    fileEnd := fun hT => by rw [hfile, hn]; exact h.fileEnd hT
    oneTxn := h.oneTxn
    disk := by
      have hss : w'.store.registry.savedState = w.store.registry.savedState := by
        unfold CapsuleRegistry.savedState; rw [hsv]
      refine ⟨by rw [hn]; exact h.disk.map, fun id => ?_, ?_, ?_, ?_, fun id c k x hx => ?_⟩
      · rw [hss]; exact (h.disk.capsules id).trans (hcap id).symm
      · rw [hss, hc]; exact h.disk.content
      · rw [hss, hi]; exact h.disk.next
      · rw [hss, hc]; exact h.disk.contentLt
      · obtain ⟨c', hc', e⟩ := hcap' k
        rw [hss]
        refine h.disk.capsuleLt id c' hc' x ?_
        rw [show c'.segments = c.segments from
          show c'.undeduped.segments = c.undeduped.segments by rw [e]]
        exact hx
    keys := hk.trans h.keys }

/-- Raising a dedup counter. -/
theorem Inv.addDedupedBytes (h : Inv D w T) (id : CapsuleId) (bytes : Nat) :
    Inv D (w.setRegistry (w.store.registry.addDedupedBytes id bytes)) T := by
  cases hc : w.store.registry.capsules.lookup id with
  | none =>
      rw [show w.store.registry.addDedupedBytes id bytes = w.store.registry by
        unfold CapsuleRegistry.addDedupedBytes; rw [hc]]
      exact h
  | some c =>
      rw [show w.store.registry.addDedupedBytes id bytes =
        { w.store.registry with
          capsules := w.store.registry.capsules.insert id
            { c with dedupedBytes := c.dedupedBytes + bytes } } by
        unfold CapsuleRegistry.addDedupedBytes; rw [hc]]
      refine h.congr rfl rfl rfl rfl rfl (fun id' => ?_) (fun x => ?_) rfl
      · refine (congrArg (Option.map Capsule.undeduped) (Table.lookup_insert _ id id' _)).trans ?_
        split
        · next e =>
            subst e
            rw [show w.cap id' = some c from hc]; rfl
        · rfl
      · show Table.total _ (AList.insert id _ _) = Table.total _ _
        rw [Table.total_insert, Table.total_erase _ hc]

/-- A key looked up and cached. -/
theorem Inv.withKey (h : Inv D w T) {km : KeyManager P} (hk : w.store.keyManager = some km)
    (v : UInt32) :
    Inv D { w with store := { w.store with keyManager := some (km.getKey v).2 } } T :=
  h.congr rfl rfl rfl rfl rfl (fun _ => rfl) (fun _ => rfl) (by simp [hk])

/-! ### Transactions -/

/-- The shared offset moved. -/
def moved (w : World P) (offset : Nat) : World P :=
  w.setNvram { w.store.nvram with nextOffset := offset }

/-- **Moving the shared offset**, with other tokens for the transaction.  Identifiers may be
released that no segment in the map has. -/
theorem Inv.move (h : Inv D w T) {T' : Ghost} {offset : Nat}
    (hcl : ∀ x ∈ T'.claims, x ∈ T.claims) (hnd : T'.claims.Nodup)
    (hgone : ∀ x ∈ T.claims, x ∉ T'.claims → w.seg x = none)
    (hw : ∀ x, T'.weight x = T.weight x) (hend : T'.txns = 0 → offset = w.file.length)
    (hone : T'.txns ≤ 1) (hdy : ∀ x, Dying T x → Dying T' x)
    (hbi : ∀ x, .bare x ∈ T ∨ .idle x ∈ T → .bare x ∈ T' ∨ .idle x ∈ T')
    (htok : ∀ τ ∈ T', τ ∈ T ∧ τ.isTxn = false ∨ (w.moved offset).Holds D T' τ) :
    Inv D (w.moved offset) T' := by
  have E : Evolves w T (w.moved offset) T' := {
    next := Nat.le_refl _
    free := fun x _ hx hx' => hx (hcl x hx')
    payload := fun _ _ _ => rfl
    form := fun x _ _ s' hs' => ⟨s', hs', rfl⟩
    refs := fun _ _ _ h0 => h0
    content := fun _ _ k => .inl k }
  exact {
    refs := fun x => by rw [hw]; exact h.refs x
    bounded := fun t x => by rw [hw]; exact h.bounded t x
    keyed := h.keyed
    extent := fun x s hx =>
      ⟨(h.extent x s hx).len, (h.extent x s hx).inside, (h.extent x s hx).stored⟩
    dedup := h.dedup
    legit := fun x s hx hf => h.legit x s hx fun k => by
      have e := hgone x k hf
      rw [show w.seg x = some s from hx] at e; cases e
    content := fun hash x hx =>
      ⟨fun k => (h.content hash x hx).1 (hcl x k), (h.content hash x hx).2⟩
    indexed := fun hso x s hash hx hh => by
      refine (h.indexed hso x s hash hx hh).imp_right fun k => ?_
      by_cases hx' : x ∈ T'.claims
      · exact .inl hx'
      rcases k with k | k
      · have e := hgone x k hx'
        rw [show w.seg x = some s from hx] at e; cases e
      · exact .inr (hbi x k)
    capsules := fun id c hc => (h.capsules id c hc).evolve E rfl rfl
    claimsNodup := hnd
    claimsLt := fun x hx => h.claimsLt x (hcl x hx)
    tokens := fun τ hτ => by
      rcases htok τ hτ with ⟨hτ, ht⟩ | hτ
      · refine (h.tokens τ hτ).evolve E (fun _ _ => ⟨rfl, rfl⟩) (.same fun _ => rfl)
          (fun _ _ => rfl)
          fun k => ?_
        rw [ht] at k; cases k
      · exact hτ
    zero := fun x s hx h0 => hdy x (h.zero x s hx h0)
    fileEnd := hend
    oneTxn := hone
    disk := { h.disk with }
    keys := h.keys }

theorem moved_self {n : Nat} (h : w.store.nvram.nextOffset = n) : w.moved n = w := by subst h; rfl

/-- No other token is a transaction. -/
theorem Inv.txns_rest {τ : Token} (h : Inv D w (τ ::ₘ T)) (ht : τ.isTxn = true) : T.txns = 0 := by
  have := h.oneTxn
  simp only [Ghost.txns_cons, ht] at this
  simpa using this

theorem isTxn_of_txns (h : T.txns = 0) {τ : Token} (hτ : τ ∈ T) : τ.isTxn = false :=
  Bool.eq_false_iff.mpr (Multiset.countP_eq_zero.mp h τ hτ)

/-- Beginning a transaction. -/
theorem Inv.begin (h : Inv D w T) (hs : D.solo) (ht : T.txns = 0) :
    Inv D w (w.store.nvram.beginTransaction.token ::ₘ T) := by
  have hoff := h.fileEnd ht
  have k := @Inv.move _ _ _ _ h (w.store.nvram.beginTransaction.token ::ₘ T)
    w.store.nvram.nextOffset
    (by simp [NvramTransaction.token, NvramTransaction.staged, NvramLog.beginTransaction])
    (by simpa [NvramTransaction.token, NvramTransaction.staged, NvramLog.beginTransaction] using
      h.claimsNodup)
    (fun x hx hx' => absurd (by simpa [NvramTransaction.token] using .inr hx) hx')
    (by simp [NvramTransaction.token]) (fun e => by simp [NvramTransaction.token] at e)
    (by simp [NvramTransaction.token, ht]) (fun x => .cons _)
    (fun x k => k.imp Multiset.mem_cons_of_mem Multiset.mem_cons_of_mem) fun τ hτ => ?_
  · rwa [moved_self rfl] at k
  · rcases Multiset.mem_cons.mp hτ with rfl | hτ
    · refine .inr ⟨hs, rfl, hoff.symm, rfl, fun s hm => ?_⟩
      simp [NvramTransaction.staged, NvramLog.beginTransaction] at hm
    · exact .inl ⟨hτ, isTxn_of_txns ht hτ⟩

theorem Tiles.snoc {base current : Nat} {l : List Staged} (h : Tiles base l current)
    {s : Staged} (hs : s.offset = current) : Tiles base (l ++ [s]) (current + s.data.length) := by
  induction l generalizing base with
  | nil => cases h; exact ⟨hs, rfl⟩
  | cons s' l ih => exact ⟨h.1, ih h.2⟩

/-- Staging a payload under a drawn identifier. -/
theorem Inv.stage {x : SegmentId} {base current : Nat} {l : List Staged} {d : Bytes}
    (h : Inv D w (.fresh x ::ₘ .txn base current l ::ₘ T)) :
    Inv D (w.moved (current + d.length))
      (.txn base (current + d.length) (l ++ [⟨x, current, d⟩]) ::ₘ T) := by
  have hf : w.seg x = none := h.tokens (.fresh x) (by simp)
  have ht := h.tokens (.txn base current l) (by simp)
  have hone := h.oneTxn
  have hcl : Ghost.claims (.txn base (current + d.length) (l ++ [⟨x, current, d⟩]) ::ₘ T) =
      Ghost.claims (.fresh x ::ₘ .txn base current l ::ₘ T) := by
    simp only [Ghost.claims_cons, Token.claims_txn, Token.claims_fresh, List.map_append,
      List.map_cons, List.map_nil, ← Multiset.coe_add, Multiset.coe_singleton]
    rw [← add_assoc]
    exact congrArg (· + _) (add_comm _ _)
  refine h.move (fun y hy => hcl ▸ hy) (hcl ▸ h.claimsNodup) (fun y hy hn => absurd (hcl ▸ hy) hn)
    (by simp) (fun e => by simp at e) (by simpa using hone) (fun y k => ?_) (fun y k => ?_)
    fun τ hτ => ?_
  · simpa [Dying] using k
  · simpa using k
  · rcases Multiset.mem_cons.mp hτ with rfl | hτ
    · refine .inr ⟨ht.1, rfl, ht.2.2.1, Tiles.snoc ht.2.2.2.1 rfl, fun s hm => ?_⟩
      rcases List.mem_append.mp hm with hm | hm
      · exact ht.2.2.2.2 s hm
      · cases List.mem_singleton.mp hm; exact hf
    · refine .inl ⟨by simp [hτ], isTxn_of_txns ?_ hτ⟩
      simpa using hone

/-- **Rolling back** a transaction. -/
theorem Inv.rollback {base current : Nat} {l : List Staged}
    (h : Inv D w (.txn base current l ::ₘ T)) : Inv D (w.moved base) T := by
  have ht := h.tokens (.txn base current l) (by simp)
  have hT := h.txns_rest rfl
  have hnd := h.claimsNodup
  rw [Ghost.claims_cons, Multiset.nodup_add] at hnd
  refine h.move (fun y hy => by simp [hy]) hnd.2.1 (fun y hy hn => ?_) (by simp)
    (fun _ => ht.2.2.1.symm) (by simp [hT]) (fun y k => ?_) (fun y k => ?_)
    fun τ hτ => .inl ⟨Multiset.mem_cons_of_mem hτ, isTxn_of_txns hT hτ⟩
  · rw [Ghost.claims_cons, Multiset.mem_add] at hy
    obtain ⟨s, hs, rfl⟩ := List.mem_map.mp (Multiset.mem_coe.mp (hy.resolve_right hn))
    exact ht.2.2.2.2 s hs
  · simpa [Dying] using k
  · simpa using k

/-- Nothing is staged any more. -/
theorem Inv.closeTxn {base current : Nat} (h : Inv D w (.txn base current [] ::ₘ T)) :
    Inv D w T := by
  have ht := h.tokens (.txn base current []) (by simp)
  have k := h.rollback
  rwa [moved_self] at k
  rw [show base = current from ht.2.2.2.1]
  exact ht.2.1

/-- The first pending payload stored. -/
theorem Inv.install {p : PendingSegment} {base current : Nat} {l : List Staged}
    (h : Inv D w (.txn base current (⟨p.segment.id, p.segment.offset, p.data⟩ :: l) ::ₘ T))
    (hp : p.Ready D) :
    Inv D (w.stored p.segment p.data w.store.nvram.nextOffset)
      (.own p.segment p.data ::ₘ .txn (base + p.data.length) current l ::ₘ T) := by
  obtain ⟨hs, h₁, h₂, ⟨h₃, h₄⟩, h₅⟩ := h.tokens (.txn _ _ _) (Multiset.mem_cons_self _ _)
  have hT := h.txns_rest rfl
  have hn : w.seg p.segment.id = none := h₅ _ List.mem_cons_self
  obtain ⟨hocc, hwt⟩ := h.fresh_unreferenced hn
  rw [Ghost.weight_cons, Token.weight_txn, zero_add] at hwt
  have hnd := h.claimsNodup
  rw [Ghost.claims_cons, Multiset.nodup_add] at hnd
  have hmem : p.segment.id ∈ Token.claims
      (.txn base current (⟨p.segment.id, p.segment.offset, p.data⟩ :: l)) := by simp
  refine h.store (by simp) hn (h₃.trans h₂.symm) hp.2.1 hp.2.2.1 hp.2.2.2.1 hp.2.2.2.2
    ?_ (by simp [hwt]) (fun y e => by simp [Ne.symm e]) (fun y k => by simpa using k)
    (fun y k => by simpa [Dying] using k) (by simp) (by simp [hT]) fun E τ hτ => ?_
  · simp only [Ghost.claims_cons, Token.claims_own, Token.claims_txn, List.map_cons]
    rw [← add_assoc]; rfl
  rcases Multiset.mem_cons.mp hτ with rfl | hτ
  · exact .inr ⟨(seg_stored ..).trans (if_pos rfl), payload_stored_self .., hp.2.2.1, hocc⟩
  rcases Multiset.mem_cons.mp hτ with rfl | hτ
  · refine .inr ⟨hs, h₁, ?_, h₄, fun s hm => ?_⟩
    · show (w.store.nvram.file ++ p.data).length = _
      rw [List.length_append]; exact congrArg (· + p.data.length) h₂
    · rw [seg_stored, if_neg]
      · exact h₅ s (List.mem_cons_of_mem _ hm)
      · intro e
        have := hnd.1
        simp only [Token.claims_txn, List.map_cons, Multiset.coe_nodup, List.nodup_cons] at this
        exact this.1 (e ▸ List.mem_map_of_mem hm)
  · refine .inl ⟨Multiset.mem_cons_of_mem hτ, fun k => ?_, isTxn_of_txns hT hτ⟩
    exact h.claims_ne rfl hτ hmem k rfl

/-- What a committed segment leaves, from what an installed one does. -/
theorem Inv.settle {p : PendingSegment} (h : Inv D w (.own p.segment p.data ::ₘ T))
    (hl : D.legit ⟨p.segment.form, p.data⟩) : Inv D w (p.tokens + T) := by
  unfold PendingSegment.tokens
  split
  · next e => rw [Multiset.cons_add]; exact h.release e hl
  · rwa [Multiset.singleton_add]

/-- A list of pending segments stored, one after the other. -/
def storedAll (w : World P) (l : List PendingSegment) : World P :=
  l.foldl (fun w p => w.stored p.segment p.data w.store.nvram.nextOffset) w

/-- **Committing** what is staged. -/
theorem Inv.commit : ∀ {l : List PendingSegment} {w : World P} {T : Ghost} {base current : Nat},
    Inv D w (.txn base current (l.map fun p => ⟨p.segment.id, p.segment.offset, p.data⟩) ::ₘ T) →
    (∀ p ∈ l, p.Ready D) → Inv D (w.storedAll l) ((l.map PendingSegment.tokens).sum + T)
  | [], _, _, _, _, h, _ => by simpa [storedAll] using h.closeTxn
  | p :: l, w, T, base, current, h, hl => by
      have h' := (h.install (hl p List.mem_cons_self)).settle (hl p List.mem_cons_self).1
      rw [Multiset.add_cons] at h'
      have := Inv.commit h' fun q hq => hl q (List.mem_cons_of_mem _ hq)
      rwa [List.map_cons, List.sum_cons, add_assoc, add_left_comm]

end World

end Space
