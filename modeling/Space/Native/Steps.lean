import Space.Native.Evolution

/-!
# Native — Steps

Each operation of the discipline keeps the invariant: one lemma for each operation, from the
tokens it needs to the tokens it leaves.
-/

namespace Space
open Support

variable {P : Primitives} {D : Discipline} {w : World P} {T : Ghost}

namespace World

def setRegistry (w : World P) (reg : CapsuleRegistry) : World P :=
  { w with store := { w.store with registry := reg } }

def setNvram (w : World P) (log : NvramLog) : World P :=
  { w with store := { w.store with nvram := log } }

/-- Enter a segment in the map, and save it. -/
def putSegment (w : World P) (x : SegmentId) (s : Segment) : World P :=
  w.setNvram (w.store.nvram.withMap (w.store.nvram.segmentMap.insert x s))

/-- Remove a segment from the map, and save it. -/
def dropSegment (w : World P) (x : SegmentId) : World P :=
  w.setNvram (w.store.nvram.withMap (w.store.nvram.segmentMap.erase x))

theorem seg_putSegment (w : World P) (x y : SegmentId) (s : Segment) :
    (w.putSegment x s).seg y = if y = x then some s else w.seg y := Table.lookup_insert _ _ _ _

theorem seg_putSegment_self (w : World P) (x : SegmentId) (s : Segment) :
    (w.putSegment x s).seg x = some s := by rw [seg_putSegment, if_pos rfl]

theorem seg_putSegment_ne (w : World P) {x y : SegmentId} (s : Segment) (h : y ≠ x) :
    (w.putSegment x s).seg y = w.seg y := by rw [seg_putSegment, if_neg h]

theorem refs_putSegment (w : World P) (x y : SegmentId) (s : Segment) :
    (w.putSegment x s).refs y = if y = x then s.refCount else w.refs y := by
  unfold refs
  rw [seg_putSegment]
  split <;> rfl

theorem seg_dropSegment (w : World P) (x y : SegmentId) :
    (w.dropSegment x).seg y = if y = x then none else w.seg y := Table.lookup_erase _ _ _

theorem seg_dropSegment_eq_some {w : World P} {x y : SegmentId} {s : Segment} :
    (w.dropSegment x).seg y = some s ↔ y ≠ x ∧ w.seg y = some s := Table.lookup_erase_eq_some

theorem refs_dropSegment (w : World P) (x y : SegmentId) :
    (w.dropSegment x).refs y = if y = x then 0 else w.refs y := by
  unfold refs
  rw [seg_dropSegment]
  split <;> rfl

theorem onDisk_withMap {s : Store P} (h : OnDisk s) {log : NvramLog}
    {m : Table SegmentId Segment} : OnDisk { s with nvram := log.withMap m } :=
  { h with map := rfl }

/-! ### Tokens that follow from the state -/

namespace Inv

/-- A segment in the map that nobody has reserved is known. -/
theorem known (h : Inv D w T) {x : SegmentId} {s : Segment} (hs : w.seg x = some s)
    (hx : x ∉ T.claims) : w.Known T x ⟨s.form, w.payload x⟩ where
  lt := (h.keyed x s hs).2
  free := hx
  payload := rfl
  form := fun s' hs' => by rw [hs] at hs'; cases hs'; rfl

/-- **Other tokens for the same state.** -/
theorem retoken (h : Inv D w T) {T' : Ghost} (hcl : T'.claims = T.claims)
    (hw : ∀ x, T'.weight x = T.weight x) (htx : T'.txns = T.txns)
    (hhid : ∀ x s hash, w.seg x = some s → s.contentHash = some hash → Hidden T x → Hidden T' x)
    (hdy : ∀ x s, w.seg x = some s → Dying T x → Dying T' x)
    (htok : ∀ τ ∈ T', τ ∈ T ∨ w.Holds D T τ) : Inv D w T' := by
  have E : Evolves w T w T' := .same fun x hx => hcl ▸ hx
  exact {
    refs := fun x => by rw [hw]; exact h.refs x
    bounded := fun t x => by rw [hw]; exact h.bounded t x
    keyed := h.keyed
    extent := h.extent
    dedup := h.dedup
    legit := fun x s hs hx => h.legit x s hs (hcl ▸ hx)
    content := fun hsh x hx => ⟨hcl ▸ (h.content hsh x hx).1, (h.content hsh x hx).2⟩
    indexed := fun hs x s hsh e e' => (h.indexed hs x s hsh e e').imp_right (hhid x s hsh e e')
    capsules := fun id c hcap => (h.capsules id c hcap).evolve E rfl rfl
    claimsNodup := hcl ▸ h.claimsNodup
    claimsLt := hcl ▸ h.claimsLt
    tokens := fun τ hτ => by
      have same : ∀ {τ'}, w.Holds D T τ' → w.Holds D T' τ' := Holds.same fun x hx => hcl ▸ hx
      exact (htok τ hτ).elim (fun k => same (h.tokens τ k)) same
    zero := fun x s hs h0 => hdy x s hs (h.zero x s hs h0)
    fileEnd := fun hT => h.fileEnd (htx ▸ hT)
    oneTxn := htx ▸ h.oneTxn
    disk := h.disk
    keys := h.keys }

/-- One more token, which claims nothing. -/
theorem addToken (h : Inv D w T) {τ : Token} (hτ : w.Holds D T τ) (hc : τ.claims = 0)
    (hw : ∀ x, τ.weight x = 0) (ht : τ.isTxn = false) : Inv D w (τ ::ₘ T) := by
  refine h.retoken (by simp [hc]) (by simp [hw]) (by simp [ht])
    (fun _ _ _ _ _ => .cons τ) (fun _ _ _ => .cons τ) fun τ' hτ' => ?_
  rcases Multiset.mem_cons.mp hτ' with rfl | hτ'
  · exact .inr hτ
  · exact .inl hτ'

/-- A token that only says something may be forgotten. -/
theorem dropToken {τ : Token} (h : Inv D w (τ ::ₘ T)) (hc : τ.claims = 0)
    (hw : ∀ x, τ.weight x = 0) (ht : τ.isTxn = false)
    (hn : ∀ x hash, τ ≠ .dead x hash ∧ τ ≠ .bare x ∧ τ ≠ .idle x) : Inv D w T := by
  refine h.retoken (by simp [hc]) (by simp [hw]) (by simp [ht])
    (fun x _ _ _ _ hx => ?_) (fun x _ _ hx => ?_) fun τ' hτ' => .inl (Multiset.mem_cons_of_mem hτ')
  · refine hx.imp (fun k => by simpa [hc] using k) (.imp (fun k => ?_) fun k => ?_)
    · exact Ghost.mem_of_mem_cons k fun e => (hn x none).2.1 e.symm
    · exact Ghost.mem_of_mem_cons k fun e => (hn x none).2.2 e.symm
  · rcases hx with ⟨hsh, k⟩ | k
    · exact .inl ⟨hsh, Ghost.mem_of_mem_cons k fun e => (hn x hsh).1 e.symm⟩
    · exact .inr (Ghost.mem_of_mem_cons k fun e => (hn x none).2.1 e.symm)

end Inv

/-! ### Drawing an identifier -/

theorem Inv.alloc (h : Inv D w T) :
    Inv D (w.setRegistry w.store.registry.allocSegment.2) (.fresh ⟨w.next⟩ ::ₘ T) := by
  have hlt : ∀ x ∈ T.claims, x ≠ ⟨w.next⟩ := fun x hx e =>
    Nat.lt_irrefl w.next (by simpa [e] using h.claimsLt x hx)
  have E : Evolves w T (w.setRegistry w.store.registry.allocSegment.2) (.fresh ⟨w.next⟩ ::ₘ T) := {
    next := Nat.le_succ _
    free := fun x hx hn => by
      simp only [Ghost.claims_cons, Token.claims, Multiset.mem_add, Multiset.mem_singleton, not_or]
      exact ⟨fun e => by rw [e] at hx; exact Nat.lt_irrefl _ hx, hn⟩
    payload := fun _ _ _ => rfl
    form := fun _ _ _ s hs => ⟨s, hs, rfl⟩
    refs := fun _ _ _ k => k
    content := fun _ _ k => .inl k }
  exact {
    refs := fun x => by
      rw [Ghost.weight_cons, Token.weight_fresh, zero_add]; exact h.refs x
    bounded := fun t x => by
      rw [Ghost.weight_cons, Token.weight_fresh, zero_add]; exact h.bounded t x
    keyed := fun x s hs => ⟨(h.keyed x s hs).1, Nat.lt_succ_of_lt (h.keyed x s hs).2⟩
    extent := fun x s hs =>
      ⟨(h.extent x s hs).len, (h.extent x s hs).inside, (h.extent x s hs).stored⟩
    dedup := h.dedup
    legit := fun x s hs hx => h.legit x s hs fun hm => hx (by simp [hm])
    content := fun hsh x hx => by
      obtain ⟨hn, s, hs, hh⟩ := h.content hsh x hx
      exact ⟨E.free x (h.keyed x s hs).2 hn, s, hs, hh⟩
    indexed := fun hs x s hsh e e' => (h.indexed hs x s hsh e e').imp_right (.cons _)
    capsules := fun id c hcap => (h.capsules id c hcap).evolve E rfl rfl
    claimsNodup := by
      simp only [Ghost.claims_cons, Token.claims, Multiset.singleton_add, Multiset.nodup_cons]
      exact ⟨fun hm => hlt _ hm rfl, h.claimsNodup⟩
    claimsLt := fun x hx => by
      simp only [Ghost.claims_cons, Token.claims, Multiset.mem_add, Multiset.mem_singleton] at hx
      rcases hx with rfl | hx
      · exact Nat.lt_succ_self _
      · exact Nat.lt_succ_of_lt (h.claimsLt x hx)
    tokens := fun τ hτ => by
      rcases Multiset.mem_cons.mp hτ with rfl | hτ
      · by_contra hne
        obtain ⟨s, hs⟩ := Option.ne_none_iff_exists'.mp hne
        exact Nat.lt_irrefl _ (h.keyed _ s hs).2
      · exact (h.tokens τ hτ).evolve E (fun _ _ => ⟨rfl, rfl⟩) (.same fun _ => rfl) (fun _ _ => rfl)
          fun _ => ⟨rfl, rfl⟩
    zero := fun x s hs h0 => (h.zero x s hs h0).cons _
    fileEnd := fun hT => h.fileEnd (by simpa using hT)
    oneTxn := by simpa using h.oneTxn
    disk := { h.disk with next := Nat.le_succ_of_le h.disk.next }
    keys := h.keys }

/-! ### References -/

/-- A segment with more or fewer references is the same segment. -/
theorem Evolves.recount {T' : Ghost} {x : SegmentId} {s s' : Segment} (hs : w.seg x = some s)
    (hf : s'.form = s.form) (hr : s.refCount ≠ 0) (hc : T'.claims = T.claims) :
    Evolves w T (w.putSegment x s') T' where
  next := Nat.le_refl _
  free := fun y _ hy => hc ▸ hy
  payload := fun _ _ _ => rfl
  form := fun y _ _ s₁ h₁ => by
    rw [seg_putSegment] at h₁
    split at h₁
    · next e => cases h₁; subst e; exact ⟨s, hs, hf⟩
    · exact ⟨s₁, h₁, rfl⟩
  refs := fun y _ _ h0 => by
    rw [refs_putSegment, if_neg]
    · exact h0
    · rintro rfl
      exact hr ((refs_of_seg hs).symm.trans h0)
  content := fun _ _ k => .inl k

theorem Extent.put {x : SegmentId} {s s' : Segment} (h : w.Extent x s) (ho : s'.offset = s.offset)
    (hl : s'.len = s.len) : (w.putSegment x s').Extent x s' :=
  ⟨hl.trans h.len, ho ▸ h.inside, ho ▸ h.stored⟩

theorem Extent.frame {x y : SegmentId} {s s' : Segment} (h : w.Extent y s) :
    (w.putSegment x s').Extent y s := ⟨h.len, h.inside, h.stored⟩

/-- **Recounting.**  A segment that had references gets another count, the one the tokens say. -/
theorem Inv.recount (h : Inv D w T) {T' : Ghost} {x : SegmentId} {s s' : Segment}
    (hs : w.seg x = some s) (hx : x ∉ T.claims) (h1 : s.refCount ≠ 0) (hf : s'.form = s.form)
    (ho : s'.offset = s.offset) (hd : s'.deduplicated = decide (1 < s'.refCount))
    (hcl : T'.claims = T.claims) (hself : s'.refCount = min u32Max (w.occ x + T'.weight x))
    (hother : ∀ y, y ≠ x → T'.weight y = T.weight y)
    (hb : D.tight → w.occ x + T'.weight x ≤ u32Max) (hhid : ∀ y, Hidden T y → Hidden T' y)
    (hdy : ∀ y, Dying T y → Dying T' y) (hz : s'.refCount = 0 → Dying T' x)
    (htx : T'.txns = T.txns)
    (htok : ∀ τ ∈ T', τ ∈ T ∨ (w.putSegment x s').Holds D T' τ) :
    Inv D (w.putSegment x s') T' := by
  have E : Evolves w T (w.putSegment x s') T' := Evolves.recount hs hf h1 hcl
  have hlen : s'.len = s.len := show s'.form.len = s.form.len from congrArg Segment.len hf
  exact {
    refs := fun y => by
      rw [refs_putSegment]
      split
      · next e => subst e; exact hself
      · next e => rw [hother y e]; exact h.refs y
    bounded := fun t y => by
      by_cases e : y = x
      · subst e; exact hb t
      · rw [hother y e]; exact h.bounded t y
    keyed := fun y s₁ h₁ => by
      rw [seg_putSegment] at h₁
      split at h₁
      · next e =>
          cases h₁; subst e
          refine ⟨Eq.trans ?_ (h.keyed y s hs).1, (h.keyed y s hs).2⟩
          exact show s'.form.id = s.form.id from congrArg Segment.id hf
      · exact h.keyed y s₁ h₁
    extent := fun y s₁ h₁ => by
      rw [seg_putSegment] at h₁
      split at h₁
      · next e => cases h₁; subst e; exact (h.extent y s hs).put ho hlen
      · exact (h.extent y s₁ h₁).frame
    dedup := fun y s₁ h₁ => by
      rw [seg_putSegment] at h₁
      split at h₁
      · cases h₁; exact hd
      · exact h.dedup y s₁ h₁
    legit := fun y s₁ h₁ hy => by
      rw [hcl] at hy
      rw [seg_putSegment] at h₁
      split at h₁
      · next e => cases h₁; subst e; rw [hf]; exact h.legit y s hs hy
      · exact h.legit y s₁ h₁ hy
    content := fun hsh y hy => by
      obtain ⟨hn, s₁, h₁, hh⟩ := h.content hsh y hy
      refine ⟨hcl ▸ hn, ?_⟩
      by_cases e : y = x
      · subst e
        rw [hs] at h₁; cases h₁
        exact ⟨s', seg_putSegment_self .., (contentHash_of_form hf).trans hh⟩
      · exact ⟨s₁, (seg_putSegment_ne _ _ e).trans h₁, hh⟩
    indexed := fun hso y s₁ hsh h₁ hh => by
      rw [seg_putSegment] at h₁
      refine .imp_right (hhid y) ?_
      split at h₁
      · next e =>
          cases h₁; subst e
          exact h.indexed hso y s hsh hs ((contentHash_of_form hf).symm.trans hh)
      · exact h.indexed hso y s₁ hsh h₁ hh
    capsules := fun id c hc => (h.capsules id c hc).evolve E rfl rfl
    claimsNodup := hcl ▸ h.claimsNodup
    claimsLt := hcl ▸ h.claimsLt
    tokens := fun τ hτ => by
      rcases htok τ hτ with hτ | hτ
      · refine (h.tokens τ hτ).evolve E (fun y hy => ⟨seg_putSegment_ne _ _ ?_, rfl⟩)
          (.same fun _ => rfl) (fun _ _ => rfl) fun _ => ⟨rfl, rfl⟩
        rintro rfl
        exact hx (Ghost.mem_claims.mpr ⟨τ, hτ, hy⟩)
      · exact hτ
    zero := fun y s₁ h₁ h0 => by
      rw [seg_putSegment] at h₁
      split at h₁
      · next e => cases h₁; subst e; exact hz h0
      · exact hdy y (h.zero y s₁ h₁ h0)
    fileEnd := fun hT => h.fileEnd (htx ▸ hT)
    oneTxn := htx ▸ h.oneTxn
    disk := onDisk_withMap h.disk
    keys := h.keys }

/-- The segment with one more reference. -/
def increment (s : Segment) : Segment :=
  { s with
    refCount := saturatingSucc s.refCount
    deduplicated := decide (1 < saturatingSucc s.refCount)
    accessCount := saturatingSucc s.accessCount }

theorem Inv.increment (h : Inv D w T) {x : SegmentId} {s : Segment} (hs : w.seg x = some s)
    (hx : x ∉ T.claims) (h1 : s.refCount ≠ 0) (hb : D.tight → s.refCount < u32Max) :
    Inv D (w.putSegment x (World.increment s)) (.ref x ::ₘ T) := by
  have hr : s.refCount = min u32Max (w.occ x + T.weight x) := (refs_of_seg hs).symm.trans (h.refs x)
  have hwx : Ghost.weight x (.ref x ::ₘ T) = T.weight x + 1 := by simp [add_comm]
  refine h.recount hs hx h1 rfl rfl rfl (by simp) ?_ (fun y e => by simp [Ne.symm e]) ?_
    (fun _ => .cons _) (fun _ => .cons _) ?_ (by simp) fun τ hτ => ?_
  · rw [hwx]; simp only [World.increment, saturatingSucc]; omega
  · intro t
    have := hb t
    rw [hwx]; omega
  · intro h0
    simp only [World.increment, saturatingSucc, u32Max] at h0
    omega
  · rcases Multiset.mem_cons.mp hτ with rfl | hτ
    · exact .inr trivial
    · exact .inl hτ

/-- The segment with one reference less. -/
def decrement (s : Segment) : Segment :=
  { s with
    refCount := s.refCount - 1
    deduplicated := decide (1 < s.refCount - 1) }

/-- A reference is to a segment that is there, and that nobody has reserved. -/
theorem Inv.ref_mem (h : Inv D w T) (ht : D.tight) {x : SegmentId} (hx : .ref x ∈ T) :
    ∃ s, w.seg x = some s ∧ s.refCount = w.occ x + T.weight x ∧ 1 ≤ s.refCount ∧ x ∉ T.claims := by
  obtain ⟨T, rfl⟩ := Multiset.exists_cons_of_mem hx
  have hr := h.refs x
  have hb := h.bounded ht x
  rw [Ghost.weight_cons, Token.weight_ref, if_pos rfl] at hr hb
  rw [Ghost.weight_cons, Token.weight_ref, if_pos rfl]
  obtain ⟨s, hs⟩ : ∃ s, w.seg x = some s := Option.ne_none_iff_exists'.mp fun e => by
    rw [refs_of_none e] at hr
    simp only [u32Max] at hr hb
    omega
  rw [refs_of_seg hs] at hr
  refine ⟨s, hs, by omega, by simp only [u32Max] at hr hb; omega, fun hm => ?_⟩
  rw [Ghost.claims_cons, Token.claims_ref, zero_add] at hm
  obtain ⟨τ, hτ, hm⟩ := Ghost.mem_claims.mp hm
  have hτ' := h.tokens τ (Multiset.mem_cons_of_mem hτ)
  cases τ with
  | fresh y =>
      cases Multiset.mem_singleton.mp hm
      rw [show w.seg x = none from hτ'] at hs; cases hs
  | own s' d =>
      cases Multiset.mem_singleton.mp hm
      obtain ⟨T, rfl⟩ := Multiset.exists_cons_of_mem hτ
      rw [hτ'.1] at hs; cases hs
      rw [Ghost.weight_cons, Token.weight_own, if_pos rfl] at hr hb
      omega
  | txn b c l =>
      obtain ⟨st, hst, rfl⟩ := List.mem_map.mp (Multiset.mem_coe.mp hm)
      rw [hτ'.2.2.2.2 st hst] at hs; cases hs
  | _ => exact absurd hm (Multiset.notMem_zero _)

theorem Inv.decrement {x : SegmentId} (h : Inv D w (.ref x ::ₘ T)) (ht : D.tight) :
    ∃ s, w.seg x = some s ∧ s.refCount ≠ 0 ∧
      Inv D (w.putSegment x (World.decrement s))
        (if s.refCount - 1 = 0 then .dead x s.contentHash ::ₘ T else T) := by
  obtain ⟨s, hs, hr, h1, hx⟩ := h.ref_mem ht (Multiset.mem_cons_self _ _)
  rw [Ghost.weight_cons, Token.weight_ref, if_pos rfl] at hr
  have hb := h.bounded ht x
  rw [Ghost.weight_cons, Token.weight_ref, if_pos rfl] at hb
  have hcl : Ghost.claims (.ref x ::ₘ T) = T.claims := by simp
  refine ⟨s, hs, by omega, ?_⟩
  split
  · next h0 =>
      refine h.recount hs hx (by omega) rfl rfl rfl (by simp) ?_ (fun y e => by simp [Ne.symm e]) ?_
        (fun y hy => (hidden_ref.mp hy).cons _) (fun y hy => (dying_ref.mp hy).cons _)
        (fun _ => .inl ⟨_, Multiset.mem_cons_self _ _⟩) (by simp) fun τ hτ => ?_
      · rw [Ghost.weight_cons, Token.weight_dead]
        simp only [World.decrement]; omega
      · intro _; rw [Ghost.weight_cons, Token.weight_dead]; omega
      · rcases Multiset.mem_cons.mp hτ with rfl | hτ
        · refine .inr ⟨⟨(h.keyed x s hs).2, ?_, ?_⟩, fun s₁ h₁ => ?_⟩
          · rwa [Ghost.claims_cons, Token.claims_dead, zero_add, ← hcl]
          · rw [refs_putSegment, if_pos rfl]; exact h0
          · rw [seg_putSegment_self] at h₁; cases h₁; rfl
        · exact .inl (Multiset.mem_cons_of_mem hτ)
  · next h0 =>
      refine h.recount hs hx (by omega) rfl rfl rfl hcl.symm ?_ (fun y e => by simp [Ne.symm e]) ?_
        (fun y hy => hidden_ref.mp hy) (fun y hy => dying_ref.mp hy) (fun e => absurd e h0)
        (by simp) fun τ hτ => .inl (Multiset.mem_cons_of_mem hτ)
      · simp only [World.decrement]; omega
      · intro _; omega

/-! ### Storing a segment -/

/-- A payload at the end of the file, and its segment in the map. -/
def stored (w : World P) (s : Segment) (d : Bytes) (offset : Nat) : World P where
  store := { w.store with nvram :=
    { w.store.nvram with
      file := w.store.nvram.file ++ d
      nextOffset := offset }.withMap (w.store.nvram.segmentMap.insert s.id s) }
  ledger := { w.ledger with payload := Function.update w.ledger.payload s.id d }

section
variable {x : SegmentId} {d : Bytes}

/-- A reserved identifier is in no other token's claims. -/
theorem Inv.claims_ne (h : Inv D w T) {τ τ' : Token} {T₀ : Ghost} (e : T = τ ::ₘ T₀)
    (hτ' : τ' ∈ T₀) {y : SegmentId} (hx : x ∈ τ.claims) (hy : y ∈ τ'.claims) : y ≠ x := by
  rintro rfl
  have hn := h.claimsNodup
  rw [e, Ghost.claims_cons, Multiset.nodup_add] at hn
  exact (Multiset.disjoint_left.mp hn.2.2) hx (Ghost.mem_claims.mpr ⟨τ', hτ', hy⟩)

/-- An unused identifier has no references. -/
theorem Inv.fresh_unreferenced (h : Inv D w T) (hx : w.seg x = none) :
    w.occ x = 0 ∧ T.weight x = 0 := by
  have hr := h.refs x
  rw [refs_of_none hx] at hr
  simp only [u32Max] at hr
  omega

theorem Extent.grow {w' : World P} {y : SegmentId} {s : Segment} {d : Bytes} (h : w.Extent y s)
    (hf : w'.file = w.file ++ d) (hp : w'.payload y = w.payload y) : w'.Extent y s := by
  obtain ⟨h₁, h₂, h₃⟩ := h
  refine ⟨hp ▸ h₁, ?_, ?_⟩
  · rw [hp, hf, List.length_append]; omega
  · rw [hp, hf, slice_append_left h₂, h₃]

section
variable {s : Segment} {offset : Nat}

theorem seg_stored (w : World P) (s : Segment) (d : Bytes) (offset : Nat) (y : SegmentId) :
    (w.stored s d offset).seg y = if y = s.id then some s else w.seg y :=
  Table.lookup_insert _ _ _ _

theorem payload_stored_ne (w : World P) (d : Bytes) {y : SegmentId} (h : y ≠ s.id) :
    (w.stored s d offset).payload y = w.payload y := Function.update_of_ne h _ _

theorem payload_stored_self (w : World P) (s : Segment) (d : Bytes) (offset : Nat) :
    (w.stored s d offset).payload s.id = d := Function.update_self _ _ _

/-- **Storing** a payload under a reserved identifier, with the references the tokens say. -/
theorem Inv.store (h : Inv D w T) {T' : Ghost} (hx : s.id ∈ T.claims) (hn : w.seg s.id = none)
    (ho : s.offset = w.file.length) (hl : s.len = asU32 d.length) (h1 : 1 ≤ s.refCount)
    (hmax : s.refCount ≤ u32Max) (hd : s.deduplicated = decide (1 < s.refCount))
    (hcl : T'.claims = T.claims) (hwx : T'.weight s.id = s.refCount)
    (hw : ∀ y, y ≠ s.id → T'.weight y = T.weight y)
    (hbi : ∀ y, .bare y ∈ T ∨ .idle y ∈ T → .bare y ∈ T' ∨ .idle y ∈ T')
    (hdy : ∀ y, Dying T y → Dying T' y)
    (hend : T'.txns = 0 → offset = w.file.length + d.length) (hone : T'.txns ≤ 1)
    (htok : Evolves w T (w.stored s d offset) T' → ∀ τ ∈ T',
      τ ∈ T ∧ s.id ∉ τ.claims ∧ τ.isTxn = false ∨ (w.stored s d offset).Holds D T' τ) :
    Inv D (w.stored s d offset) T' := by
  have hocc := (h.fresh_unreferenced hn).1
  have hne : ∀ y, y ∉ T.claims → y ≠ s.id := fun y hy e => hy (e ▸ hx)
  have hseg := seg_stored w s d offset
  have hrefs : ∀ y, (w.stored s d offset).refs y = if y = s.id then s.refCount else w.refs y :=
    fun y => by
      split
      · next e => exact refs_of_seg ((hseg y).trans (if_pos e))
      · next e => exact refs_congr ((hseg y).trans (if_neg e))
  have hoccs : ∀ y, (w.stored s d offset).occ y = w.occ y := fun _ => rfl
  have E : Evolves w T (w.stored s d offset) T' := {
    next := Nat.le_refl _
    free := fun y _ hy => hcl ▸ hy
    payload := fun y _ hy => payload_stored_ne w d (hne y hy)
    form := fun y _ hy s' hs' => by
      rw [hseg, if_neg (hne y hy)] at hs'; exact ⟨s', hs', rfl⟩
    refs := fun y _ hy h0 => by rw [hrefs, if_neg (hne y hy)]; exact h0
    content := fun _ _ k => .inl k }
  exact {
    refs := fun y => by
      rw [hrefs, hoccs]
      split
      · next e => rw [e, hocc, hwx, Nat.zero_add, Nat.min_eq_right hmax]
      · next e => rw [hw y e]; exact h.refs y
    bounded := fun t y => by
      rw [hoccs]
      by_cases e : y = s.id
      · rw [e, hocc, hwx, Nat.zero_add]; exact hmax
      · rw [hw y e]; exact h.bounded t y
    keyed := fun y s' hs' => by
      rw [hseg] at hs'
      split at hs'
      · next e => cases hs'; exact ⟨e.symm, h.claimsLt y (e ▸ hx)⟩
      · exact h.keyed y s' hs'
    extent := fun y s' hs' => by
      rw [hseg] at hs'
      split at hs'
      · next e =>
          cases hs'; subst e
          refine ⟨?_, ?_, ?_⟩ <;> rw [payload_stored_self]
          · exact hl
          · rw [ho]; exact Nat.le_of_eq List.length_append.symm
          · rw [ho]; exact slice_append_right _ _
      · next e => exact (h.extent y s' hs').grow rfl (payload_stored_ne w d e)
    dedup := fun y s' hs' => by
      rw [hseg] at hs'
      split at hs'
      · cases hs'; exact hd
      · exact h.dedup y s' hs'
    legit := fun y s' hs' hy => by
      rw [hcl] at hy
      rw [hseg, if_neg (hne y hy)] at hs'
      rw [payload_stored_ne w d (hne y hy)]
      exact h.legit y s' hs' hy
    content := fun hsh y hy => by
      obtain ⟨hf, s₁, h₁, hh⟩ := h.content hsh y hy
      exact ⟨hcl ▸ hf, s₁, (hseg y).trans ((if_neg (hne y hf)).trans h₁), hh⟩
    indexed := fun hso y s' hsh h₁ hh => by
      rw [hseg] at h₁
      split at h₁
      · next e => exact .inr (.inl (by rw [hcl, e]; exact hx))
      · refine (h.indexed hso y s' hsh h₁ hh).imp_right fun k => ?_
        exact k.imp (fun k => hcl ▸ k) (hbi y)
    capsules := fun id c hc => (h.capsules id c hc).evolve E rfl rfl
    claimsNodup := hcl ▸ h.claimsNodup
    claimsLt := hcl ▸ h.claimsLt
    tokens := fun τ hτ => by
      rcases htok E τ hτ with ⟨hτ, hf, ht⟩ | hτ
      · have hy : ∀ y ∈ τ.claims, y ≠ s.id := fun y hy e => hf (e ▸ hy)
        refine (h.tokens τ hτ).evolve E
          (fun y k => ⟨(hseg y).trans (if_neg (hy y k)), payload_stored_ne w d (hy y k)⟩)
          (.same fun _ => rfl) (fun _ _ => rfl) fun k => ?_
        rw [ht] at k; cases k
      · exact hτ
    zero := fun y s' hs' h0 => by
      rw [hseg] at hs'
      split at hs'
      · cases hs'; omega
      · exact hdy y (h.zero y s' hs' h0)
    fileEnd := fun hT => (hend hT).trans List.length_append.symm
    oneTxn := hone
    disk := onDisk_withMap h.disk
    keys := h.keys }

end

/-- Append a payload, at the shared offset. -/
def appended (w : World P) (x : SegmentId) (d : Bytes) : World P where
  store := { w.store with nvram := (w.store.nvram.append x d).2 }
  ledger := { w.ledger with payload := Function.update w.ledger.payload x d }

theorem Inv.append (h : Inv D w (.fresh x ::ₘ T)) (ht : T.txns = 0) :
    Inv D (w.appended x d)
      (.own (Segment.appended x w.store.nvram.nextOffset (asU32 d.length)) d ::ₘ T) := by
  have hoff := h.fileEnd (by simp [ht])
  have hnone : w.seg x = none := h.tokens _ (Multiset.mem_cons_self _ _)
  obtain ⟨hocc, hwt⟩ := h.fresh_unreferenced hnone
  rw [Ghost.weight_cons, Token.weight_fresh, zero_add] at hwt
  set s := Segment.appended x w.store.nvram.nextOffset (asU32 d.length) with hs
  have hid : s.id = x := rfl
  rw [show w.appended x d = w.stored s d (w.store.nvram.nextOffset + d.length) by
    unfold appended stored NvramLog.append
    rw [show writeAt 0 w.store.nvram.file w.store.nvram.nextOffset d = w.store.nvram.file ++ d by
      rw [hoff]; exact writeAt_end _ _ _]
    rfl]
  refine h.store (by simp [hid]) hnone hoff rfl (Nat.le_refl _) (Nat.le_of_ble_eq_true rfl) rfl
    (by simp [hid]) (by simp [hwt, hid]) (fun y e => by simp [Ne.symm e])
    (fun y k => by simpa using k)
    (fun y k => by simpa [Dying] using k) (fun _ => by rw [hoff]) (by simp [ht]) fun E τ hτ => ?_
  rcases Multiset.mem_cons.mp hτ with rfl | hτ
  · refine .inr ⟨(seg_stored ..).trans (if_pos rfl), payload_stored_self .., Nat.le_refl _, hocc⟩
  · refine .inl ⟨Multiset.mem_cons_of_mem hτ, fun k => ?_, ?_⟩
    · exact h.claims_ne rfl hτ (Multiset.mem_singleton_self x) k rfl
    · exact Bool.eq_false_iff.mpr (Multiset.countP_eq_zero.mp ht τ hτ)

/-- Describing a segment nobody else knows of. -/
theorem Inv.update {s₀ s : Segment} (h : Inv D w (.own s₀ d ::ₘ T)) (hid : s.id = s₀.id)
    (ho : s.offset = s₀.offset) (hl : s.len = s₀.len) (hr : s.refCount = s₀.refCount)
    (hd : s.deduplicated = s₀.deduplicated) :
    Inv D (w.putSegment s₀.id s) (.own s d ::ₘ T) := by
  obtain ⟨hs, hp, h1, hocc⟩ := h.tokens _ (Multiset.mem_cons_self _ _)
  have hcl : Ghost.claims (.own s d ::ₘ T) = Ghost.claims (.own s₀ d ::ₘ T) := by simp [hid]
  have hmem : s₀.id ∈ Ghost.claims (.own s₀ d ::ₘ T) := by simp
  have hne : ∀ y, y ∉ Ghost.claims (.own s₀ d ::ₘ T) → y ≠ s₀.id := fun y hy e => hy (e ▸ hmem)
  have hw : ∀ y, Ghost.weight y (.own s d ::ₘ T) = Ghost.weight y (.own s₀ d ::ₘ T) := fun y => by
    simp [hid, hr]
  have hrefs : ∀ y, (w.putSegment s₀.id s).refs y = w.refs y := fun y => by
    rw [refs_putSegment]
    split
    · next e => subst e; rw [refs_of_seg hs, hr]
    · rfl
  have E : Evolves w (.own s₀ d ::ₘ T) (w.putSegment s₀.id s) (.own s d ::ₘ T) := {
    next := Nat.le_refl _
    free := fun y _ hy => hcl ▸ hy
    payload := fun _ _ _ => rfl
    form := fun y _ hy s' hs' => by
      rw [seg_putSegment_ne _ _ (hne y hy)] at hs'; exact ⟨s', hs', rfl⟩
    refs := fun y _ _ h0 => (hrefs y).trans h0
    content := fun _ _ k => .inl k }
  exact {
    refs := fun y => by rw [hrefs, hw]; exact h.refs y
    bounded := fun t y => by rw [hw]; exact h.bounded t y
    keyed := fun y s' hs' => by
      rw [seg_putSegment] at hs'
      split at hs'
      · next e => cases hs'; subst e; exact ⟨hid, (h.keyed _ s₀ hs).2⟩
      · exact h.keyed y s' hs'
    extent := fun y s' hs' => by
      rw [seg_putSegment] at hs'
      split at hs'
      · next e => cases hs'; subst e; exact (h.extent _ s₀ hs).put ho hl
      · exact (h.extent y s' hs').frame
    dedup := fun y s' hs' => by
      rw [seg_putSegment] at hs'
      split at hs'
      · cases hs'; rw [hd, hr]; exact h.dedup _ s₀ hs
      · exact h.dedup y s' hs'
    legit := fun y s' hs' hy => by
      rw [hcl] at hy
      rw [seg_putSegment_ne _ _ (hne y hy)] at hs'
      exact h.legit y s' hs' hy
    content := fun hsh y hy => by
      obtain ⟨hn, s₁, h₁, hh⟩ := h.content hsh y hy
      exact ⟨hcl ▸ hn, s₁, (seg_putSegment_ne _ _ (hne y hn)).trans h₁, hh⟩
    indexed := fun hso y s' hsh h₁ hh => by
      rw [seg_putSegment] at h₁
      split at h₁
      · next e => cases h₁; subst e; exact .inr (.inl (hcl ▸ hmem))
      · refine (h.indexed hso y s' hsh h₁ hh).imp_right ?_
        simp [Hidden, hid]
    capsules := fun id c hc => (h.capsules id c hc).evolve E rfl rfl
    claimsNodup := hcl ▸ h.claimsNodup
    claimsLt := hcl ▸ h.claimsLt
    tokens := fun τ hτ => by
      rcases Multiset.mem_cons.mp hτ with rfl | hτ
      · refine ⟨?_, hid ▸ hp, hr ▸ h1, hid ▸ hocc⟩
        rw [hid]; exact seg_putSegment_self ..
      · have hy : ∀ y ∈ τ.claims, y ≠ s₀.id := fun y hy =>
          h.claims_ne rfl hτ (Multiset.mem_singleton_self _) hy
        exact (h.tokens τ (Multiset.mem_cons_of_mem hτ)).evolve E
          (fun y k => ⟨seg_putSegment_ne _ _ (hy y k), rfl⟩)
          (.same fun _ => rfl) (fun _ _ => rfl) fun _ => ⟨rfl, rfl⟩
    zero := fun y s' hs' h0 => by
      rw [seg_putSegment] at hs'
      split at hs'
      · cases hs'; omega
      · simpa [Dying] using h.zero y s' hs' h0
    fileEnd := fun hT => h.fileEnd (by simpa using hT)
    oneTxn := by simpa using h.oneTxn
    disk := onDisk_withMap h.disk
    keys := h.keys }

open Classical in
/-- The token of an unregistered segment, for a single thread. -/
noncomputable def idles (D : Discipline) (x : SegmentId) : Ghost := if D.solo then {.idle x} else 0

theorem mem_idles {D : Discipline} {x : SegmentId} {τ : Token} :
    τ ∈ idles D x ↔ D.solo ∧ τ = .idle x := by
  unfold idles; split <;> simp [*]

theorem claims_idles (D : Discipline) (x : SegmentId) : (idles D x).claims = 0 := by
  unfold idles; split <;> rfl

theorem weight_idles (D : Discipline) (x y : SegmentId) : (idles D x).weight y = 0 := by
  unfold idles; split <;> rfl

theorem txns_idles (D : Discipline) (x : SegmentId) : (idles D x).txns = 0 := by
  unfold idles; split <;> rfl

/-- A segment nobody else knows of becomes known, and its references are its own. -/
theorem Inv.disown {s : Segment} (h : Inv D w (.own s d ::ₘ T)) (hl : D.legit ⟨s.form, d⟩) :
    Inv D w (idles D s.id +
      (.knows s.id ⟨s.form, d⟩ ::ₘ (Multiset.replicate s.refCount (.ref s.id) + T))) := by
  obtain ⟨hs, hp, h1, hocc⟩ := h.tokens _ (Multiset.mem_cons_self _ _)
  set T' : Ghost := idles D s.id +
    (.knows s.id ⟨s.form, d⟩ ::ₘ (Multiset.replicate s.refCount (.ref s.id) + T)) with hT'
  have hcl : T'.claims = T.claims := by simp [hT', Ghost.claims_replicate_ref, claims_idles]
  have hcl' : Ghost.claims (.own s d ::ₘ T) = s.id ::ₘ T.claims := by simp
  have hnd := h.claimsNodup
  rw [hcl', Multiset.nodup_cons] at hnd
  have hw : ∀ y, T'.weight y = Ghost.weight y (.own s d ::ₘ T) := fun y => by
    simp [hT', Ghost.weight_replicate_ref, weight_idles]
  have htx : T'.txns = Ghost.txns (.own s d ::ₘ T) := by
    simp [hT', Ghost.txns_replicate_ref, txns_idles]
  have hsub : ∀ x ∈ T'.claims, x ∈ Ghost.claims (.own s d ::ₘ T) := fun x hx => by
    rw [hcl']; exact Multiset.mem_cons_of_mem (hcl ▸ hx)
  have hmem : ∀ τ ∈ T, τ ∈ T' := fun τ hτ => by simp [hT', hτ]
  exact {
    refs := fun y => by rw [hw]; exact h.refs y
    bounded := fun t y => by rw [hw]; exact h.bounded t y
    keyed := h.keyed
    extent := h.extent
    dedup := h.dedup
    legit := fun y s' hs' hy => by
      by_cases e : y = s.id
      · subst e; rw [hs] at hs'; cases hs'; rw [hp]; exact hl
      · exact h.legit y s' hs' (by rw [hcl', Multiset.mem_cons, not_or]; exact ⟨e, hcl ▸ hy⟩)
    content := fun hsh y hy =>
      ⟨fun k => (h.content hsh y hy).1 (hsub y k), (h.content hsh y hy).2⟩
    indexed := fun hso y s' hsh h₁ h₂ => by
      refine (h.indexed hso y s' hsh h₁ h₂).imp_right fun k => ?_
      by_cases e : y = s.id
      · subst e
        exact .inr (.inr (Multiset.mem_add.mpr (.inl (mem_idles.mpr ⟨hso, rfl⟩))))
      refine k.imp (fun k => ?_) (.imp (fun k => ?_) fun k => ?_)
      · rw [hcl', Multiset.mem_cons] at k
        exact hcl ▸ k.resolve_left e
      · exact hmem _ (Ghost.mem_of_mem_cons k (by simp))
      · exact hmem _ (Ghost.mem_of_mem_cons k (by simp))
    capsules := fun id c hc => (h.capsules id c hc).evolve (.same hsub) rfl rfl
    claimsNodup := hcl ▸ hnd.2
    claimsLt := fun x hx => h.claimsLt x (hsub x hx)
    tokens := fun τ hτ => by
      rcases Multiset.mem_add.mp hτ with hτ | hτ
      · obtain ⟨hso, rfl⟩ := mem_idles.mp hτ
        refine ⟨hso, ⟨(h.keyed _ s hs).2, hcl ▸ hnd.1, hocc⟩, fun hsh e => ?_⟩
        exact (h.content hsh _ e).1 (by rw [hcl']; exact Multiset.mem_cons_self _ _)
      rcases Multiset.mem_cons.mp hτ with rfl | hτ
      · refine ⟨(h.keyed _ s hs).2, hcl ▸ hnd.1, hp, fun s' hs' => ?_⟩
        rw [hs] at hs'; cases hs'; rfl
      rcases Multiset.mem_add.mp hτ with hτ | hτ
      · rw [Multiset.eq_of_mem_replicate hτ]; trivial
      · exact (h.tokens τ (Multiset.mem_cons_of_mem hτ)).same hsub
    zero := fun y s' hs' h0 => by
      rcases h.zero y s' hs' h0 with ⟨hsh, k⟩ | k
      · exact .inl ⟨hsh, hmem _ (Ghost.mem_of_mem_cons k (by simp))⟩
      · exact .inr (hmem _ (Ghost.mem_of_mem_cons k (by simp)))
    fileEnd := fun hT => h.fileEnd (htx ▸ hT)
    oneTxn := htx ▸ h.oneTxn
    disk := h.disk
    keys := h.keys }

/-- A segment that is not to be registered is released. -/
theorem Inv.release {s : Segment} (h : Inv D w (.own s d ::ₘ T)) (hh : s.contentHash = none)
    (hl : D.legit ⟨s.form, d⟩) :
    Inv D w (.knows s.id ⟨s.form, d⟩ ::ₘ (Multiset.replicate s.refCount (.ref s.id) + T)) := by
  obtain ⟨hs, -, -, -⟩ := h.tokens _ (Multiset.mem_cons_self _ _)
  refine (h.disown hl).retoken (by simp [claims_idles]) (by simp [weight_idles])
    (by simp [txns_idles]) (fun x s' hsh h₁ h₂ k => ?_) (fun x s' h₁ k => ?_)
    fun τ hτ => .inl (Multiset.mem_add.mpr (.inr hτ))
  · have e : x ≠ s.id := by
      rintro rfl
      rw [hs] at h₁; cases h₁; rw [hh] at h₂; cases h₂
    refine k.imp (fun k => by simpa [claims_idles] using k) (.imp (fun k => ?_) fun k => ?_)
    · exact (Multiset.mem_add.mp k).resolve_left (by simp [mem_idles])
    · exact (Multiset.mem_add.mp k).resolve_left (by simp [mem_idles, e])
  · rcases k with ⟨hsh, k⟩ | k
    · exact .inl ⟨hsh, (Multiset.mem_add.mp k).resolve_left (by simp [mem_idles])⟩
    · exact .inr ((Multiset.mem_add.mp k).resolve_left (by simp [mem_idles]))

end

end World

end Space
