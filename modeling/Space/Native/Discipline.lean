import Space.Native.StepsTransaction
import Space.Support.Protocol

/-!
# Native — Discipline

The operations of the store, as a protocol: what a thread may call by the tokens it owns, what it
owns afterwards, and that the invariant of the state and of all tokens together is kept
(`World.step`).

`World.Allowed` is the assumption on a run.  A hash found in the content store names a segment the
discipline accepts; a reference is added to no segment whose count is about to saturate, if the
discipline is tight, and to no segment without references, unless the thread is alone, when
there is none.
-/

namespace Space
open Support

variable {P : Primitives} {D : Discipline} {w : World P} {g f T : Ghost} {data : Bytes}

namespace World

/-- What a run is assumed to keep to. -/
def Allowed (D : Discipline) : StoreOp → World P → Prop
  | .incrementRefcount x, w => ∀ s, w.seg x = some s →
      (D.tight → s.refCount < u32Max) ∧ (¬ D.solo → s.refCount ≠ 0)
  | .lookupContent hash, w => ∀ x s, w.content hash = some x → w.seg x = some s →
      D.hit hash ⟨s.form, w.payload x⟩
  | _, _ => True

/-! ### What an operation does -/

theorem exec_increment {x : SegmentId} {s : Segment} (h : w.seg x = some s) :
    exec data (.incrementRefcount x) w =
      (.ok (increment s), w.putSegment x (increment s)) := by
  have e : w.store.nvram.incrementRefcount x = (.ok (increment s),
      w.store.nvram.withMap (w.store.nvram.segmentMap.insert x (increment s))) := by
    unfold NvramLog.incrementRefcount
    rw [show w.store.nvram.segmentMap.lookup x = some s from h]
    rfl
  simp only [exec, StoreOp.exec, e]
  rfl

theorem exec_increment_none {x : SegmentId} (h : w.seg x = none) :
    ∃ e, exec data (.incrementRefcount x) w = (.error e, w) := by
  obtain ⟨e, he⟩ : ∃ e, w.store.nvram.incrementRefcount x =
      (.error e, w.store.nvram) := by
    unfold NvramLog.incrementRefcount
    rw [show w.store.nvram.segmentMap.lookup x = none from h]
    exact ⟨_, rfl⟩
  refine ⟨e, ?_⟩
  simp only [exec, StoreOp.exec, he]
  rfl

theorem exec_decrement {x : SegmentId} {s : Segment} (h : w.seg x = some s)
    (h0 : s.refCount ≠ 0) :
    exec data (.decrementRefcount x) w =
      (.ok (decrement s), w.putSegment x (decrement s)) := by
  have e : w.store.nvram.decrementRefcount x = (.ok (decrement s),
      w.store.nvram.withMap (w.store.nvram.segmentMap.insert x (decrement s))) := by
    unfold NvramLog.decrementRefcount
    rw [show w.store.nvram.segmentMap.lookup x = some s from h]
    simp only [h0, if_false]
    rfl
  simp only [exec, StoreOp.exec, e]
  rfl

theorem exec_create {id : CapsuleId} {size : Nat} {segments : List SegmentId} {policy : Policy}
    (h : w.cap id = none) :
    exec data (.createCapsuleWithSegments id size segments policy) w =
      (.ok (), w.created data ⟨id, size, segments, policy, 0⟩) := by
  have e : w.store.registry.createCapsuleWithSegments id size segments policy = (.ok (),
      ({ w.store.registry with
        capsules := w.store.registry.capsules.insert id ⟨id, size, segments, policy, 0⟩ } :
          CapsuleRegistry).save) := by
    unfold CapsuleRegistry.createCapsuleWithSegments
    rw [show w.store.registry.capsules.lookup id = none from h]
  simp only [exec, StoreOp.exec, e]
  rfl

theorem exec_create_some {id : CapsuleId} {size : Nat} {segments : List SegmentId}
    {policy : Policy} {c : Capsule} (h : w.cap id = some c) :
    ∃ e, exec data (.createCapsuleWithSegments id size segments policy) w = (.error e, w) := by
  obtain ⟨e, he⟩ : ∃ e, w.store.registry.createCapsuleWithSegments id size segments policy =
      (.error e, w.store.registry) := by
    unfold CapsuleRegistry.createCapsuleWithSegments
    rw [show w.store.registry.capsules.lookup id = some c from h]
    exact ⟨_, rfl⟩
  refine ⟨e, ?_⟩
  simp only [exec, StoreOp.exec, he]
  rfl

theorem exec_delete {id : CapsuleId} {c : Capsule} (h : w.cap id = some c) :
    exec data (.deleteCapsule id) w = (.ok c, w.deleted id) := by
  simp only [exec, StoreOp.exec, CapsuleRegistry.deleteCapsule_of_some h]
  rfl

theorem exec_delete_none {id : CapsuleId} (h : w.cap id = none) :
    ∃ e, exec data (.deleteCapsule id) w = (.error e, w) := by
  refine ⟨.msg "Capsule not found", ?_⟩
  simp only [exec, StoreOp.exec, CapsuleRegistry.deleteCapsule_of_none h]
  rfl

/-! ### Committing -/

theorem storedAll_cons (w : World P) (p : PendingSegment) (l : List PendingSegment) :
    w.storedAll (p :: l) =
      (w.stored p.segment p.data w.store.nvram.nextOffset).storedAll l := rfl

/-- Storing the pending segments one after the other is writing, installing and saving them. -/
theorem storedAll_eq : ∀ {l : List PendingSegment} {w : World P} {current : Nat},
    Tiles w.file.length (l.map fun p => ⟨p.segment.id, p.segment.offset, p.data⟩) current →
    w.storedAll l = ⟨{ w.store with nvram :=
      { file := NvramTransaction.writePending l w.store.nvram.file
        segmentMap := NvramTransaction.installPending l w.store.nvram.segmentMap
        nextOffset := w.store.nvram.nextOffset
        savedMap := if l = [] then w.store.nvram.savedMap
          else some (NvramTransaction.installPending l w.store.nvram.segmentMap) } },
      { w.ledger with payload := Ledger.recordPending l w.ledger.payload }⟩
  | [], _, _, _ => rfl
  | p :: l, w, current, h => by
      obtain ⟨ho, ht⟩ := h
      have hw : writeAt 0 w.store.nvram.file p.segment.offset p.data =
          w.store.nvram.file ++ p.data := by
        rw [show p.segment.offset = w.store.nvram.file.length from ho]; exact writeAt_end _ _ _
      rw [storedAll_cons, @storedAll_eq l _ current]
      · simp only [NvramTransaction.writePending, NvramTransaction.installPending,
          Ledger.recordPending, List.foldl_cons, hw, reduceCtorEq, if_false]
        unfold stored NvramLog.withMap
        split
        · next e => subst e; rfl
        · rfl
      · rw [show (w.stored p.segment p.data w.store.nvram.nextOffset).file.length =
          w.file.length + p.data.length from List.length_append]
        exact ht

theorem exec_commit {t : NvramTransaction} (hf : t.finalized = false)
    (hn : w.store.nvram.nextOffset = t.currentOffset)
    (ht : Tiles w.file.length t.staged t.currentOffset) :
    ∃ t', exec data (.commit t) w = (.ok t', w.storedAll t.pending) := by
  rw [storedAll_eq ht]
  by_cases e : t.pending = []
  · refine ⟨{ t with finalized := true }, ?_⟩
    simp [exec, StoreOp.exec, Store.onNvram, NvramTransaction.commit, hf, e, Ledger.record,
      NvramTransaction.writePending, NvramTransaction.installPending, Ledger.recordPending]
  · refine ⟨{ t with pending := [], finalized := true }, ?_⟩
    simp [exec, StoreOp.exec, Store.onNvram, NvramTransaction.commit, hf, e, Ledger.record, hn,
      NvramLog.withMap, NvramLog.saveSegmentMap]

/-! ### Frames -/

/-- Tokens of a single thread are in no frame. -/
theorem Inv.frame_solo (h : Inv D w (g + f)) (hf : D.solo → f = 0) {τ : Token} (hτ : τ ∈ f)
    (hs : w.Holds D (g + f) τ → D.solo) : False := by
  rw [hf (hs (h.tokens τ (Multiset.mem_add.mpr (.inr hτ))))] at hτ
  exact Multiset.notMem_zero _ hτ

theorem Inv.frame_reg (h : Inv D w (g + f)) (hf : D.solo → f = 0) {x : SegmentId}
    {hash : ContentHash} : .reg x hash ∉ f := fun hτ => h.frame_solo hf hτ And.left

theorem Inv.frame_idle (h : Inv D w (g + f)) (hf : D.solo → f = 0) {x : SegmentId} :
    .idle x ∉ f := fun hτ => h.frame_solo hf hτ And.left

theorem Inv.frame_listed (h : Inv D w (g + f)) (hf : D.solo → f = 0) {x : SegmentId} :
    .listed x ∉ f := fun hτ => h.frame_solo hf hτ And.left

theorem Inv.frame_absent (h : Inv D w (g + f)) (hf : D.solo → f = 0) {hash : ContentHash} :
    .absent hash ∉ f := fun hτ => h.frame_solo hf hτ And.left

theorem Inv.frame_txns (h : Inv D w (g + f)) (hf : D.solo → f = 0) : f.txns = 0 :=
  Multiset.countP_eq_zero.mpr fun τ hτ ht => by
    refine h.frame_solo hf hτ fun k => ?_
    cases τ with
    | txn b c l => exact k.1
    | _ => cases ht

/-! ### One step -/

/-- An allowed call by a thread that owns `g` leaves it with what the discipline says. -/
def Steps (D : Discipline) (data : Bytes) (w : World P) (g f : Ghost) (o : StoreOp) : Prop :=
  ∃ g', Token.moves D o g (exec data o w).1 g' ∧ Inv D (exec data o w).2 (g' + f)

theorem Steps.of_eq {o : StoreOp} {r : Except Error o.Res} {w' : World P} {g' : Ghost}
    (e : exec data o w = (r, w')) (hm : Token.moves D o g r g') (hI : Inv D w' (g' + f)) :
    Steps D data w g f o := ⟨g', by rw [e]; exact hm, by rw [e]; exact hI⟩

/-- A token of the thread, taken out. -/
theorem Inv.take (h : Inv D w (g + f)) {τ : Token} (hτ : τ ∈ g) :
    Inv D w (τ ::ₘ (g.erase τ + f)) := by
  rwa [← Multiset.cons_add, Multiset.cons_erase hτ]

theorem Inv.own_unique (h : Inv D w T) {s s' : Segment} {d d' : Bytes} (hs : .own s d ∈ T)
    (hs' : .own s' d' ∈ T) (hid : s.id = s'.id) : s = s' ∧ d = d' := by
  obtain ⟨h₁, h₂, -⟩ := h.tokens _ hs
  obtain ⟨h₁', h₂', -⟩ := h.tokens _ hs'
  rw [hid, h₁'] at h₁
  rw [hid, h₂'] at h₂
  exact ⟨(Option.some.inj h₁).symm, h₂.symm⟩

theorem step_append {x : SegmentId} {d : Bytes} (h : Inv D w (g + f)) (hf : D.solo → f = 0)
    (hm : Token.may D data (.append x d) g) : Steps D data w g f (.append x d) := by
  obtain ⟨hx, ht⟩ := hm
  refine ⟨_, ⟨w.store.nvram.nextOffset, rfl, rfl⟩, ?_⟩
  rw [Multiset.cons_add]
  refine (h.take hx).append ?_
  have : Ghost.txns (.fresh x ::ₘ g.erase (.fresh x)) = 0 := by rwa [Multiset.cons_erase hx]
  rw [Ghost.txns_add, h.frame_txns hf]
  simpa using this

theorem step_update {x : SegmentId} {s : Segment} (h : Inv D w (g + f))
    (hm : Token.may D data (.updateSegmentMetadata x s) g) :
    Steps D data w g f (.updateSegmentMetadata x s) := by
  obtain ⟨s₀, d, hx, rfl, hid, ho, hl, hr, hd, hlegit⟩ := hm
  have hI := (h.take hx).update hid ho hl hr hd
  have huniq : ∀ s₁ d₁, .own s₁ d₁ ∈ g → s₁.id = s₀.id → s₁ = s₀ ∧ d₁ = d := fun s₁ d₁ h₁ e =>
    h.own_unique (Multiset.mem_add.mpr (.inl h₁)) (Multiset.mem_add.mpr (.inl hx)) e
  by_cases hh : s.contentHash = none
  · refine ⟨.knows s.id ⟨s.form, d⟩ ::ₘ (Multiset.replicate s.refCount (.ref s.id) +
      g.erase (.own s₀ d)), ⟨rfl, fun s₁ d₁ h₁ e => ?_⟩, ?_⟩
    · obtain ⟨rfl, rfl⟩ := huniq s₁ d₁ h₁ e
      rw [if_pos hh, hid]
    · rw [Multiset.cons_add, add_assoc]
      exact hI.release hh hlegit
  · refine ⟨.own s d ::ₘ g.erase (.own s₀ d), ⟨rfl, fun s₁ d₁ h₁ e => ?_⟩, ?_⟩
    · obtain ⟨rfl, rfl⟩ := huniq s₁ d₁ h₁ e
      rw [if_neg hh]
    · rw [Multiset.cons_add]; exact hI

theorem step_register {x : SegmentId} {hash : ContentHash} (h : Inv D w (g + f))
    (hf : D.solo → f = 0) (hm : Token.may D data (.registerContent hash x) g) :
    Steps D data w g f (.registerContent hash x) := by
  obtain ⟨s, d, hx, rfl, hh, hl, ha⟩ := hm
  refine ⟨.knows s.id ⟨s.form, d⟩ ::ₘ (Multiset.replicate s.refCount (.ref s.id) +
    (regs D s.id hash + (g.erase (.own s d)).filter (· ≠ .absent hash))),
    ⟨rfl, fun s₁ d₁ h₁ e => ?_⟩, ?_⟩
  · obtain ⟨rfl, rfl⟩ := h.own_unique (Multiset.mem_add.mpr (.inl h₁))
      (Multiset.mem_add.mpr (.inl hx)) e
    unfold regs
    congr
  · have hI := (h.take hx).filter (p := (· ≠ .absent hash)) fun τ _ e => by
      rw [not_not.mp e]; trivial
    rw [Multiset.filter_cons_of_pos _ (by simp), Multiset.filter_add,
      Multiset.filter_eq_self.mpr fun τ hτ => ne_of_mem_of_not_mem hτ (h.frame_absent hf)] at hI
    rw [Multiset.cons_add, add_assoc, add_assoc]
    refine hI.register hh hl (fun hs => ?_) fun k => ?_
    · exact (h.tokens _ (Multiset.mem_add.mpr (.inl (ha hs)))).2
    · rcases Multiset.mem_add.mp k with k | k
      · exact (Multiset.mem_filter.mp k).2 rfl
      · exact h.frame_absent hf k

theorem step_increment {x : SegmentId} (h : Inv D w (g + f)) (hf : D.solo → f = 0)
    (hm : Token.may D data (.incrementRefcount x) g) (hok : Allowed D (.incrementRefcount x) w) :
    Steps D data w g f (.incrementRefcount x) := by
  obtain ⟨⟨i, hi⟩, hnd⟩ := hm
  have hk := h.tokens _ (Multiset.mem_add.mpr (.inl hi))
  cases hs : w.seg x with
  | none =>
      obtain ⟨e, he⟩ : ∃ e, exec data (.incrementRefcount x) w = (.error e, w) :=
        exec_increment_none hs
      exact .of_eq he (.inr ⟨e, rfl, rfl⟩) h
  | some s =>
      have h0 : s.refCount ≠ 0 := fun h0 => by
        by_cases hso : D.solo
        · have hd := h.zero x s hs h0
          rw [hf hso, add_zero] at hd
          rcases hd with ⟨hash, k⟩ | k
          · exact (hnd hso _ k x hash).1 rfl
          · exact (hnd hso _ k x none).2 rfl
        · exact (hok s hs).2 hso h0
      have hI := h.increment hs hk.free h0 (hok s hs).1
      by_cases hl : D.solo ∧ 1 ≤ w.occ x
      · refine .of_eq (exec_increment hs) (.inl ⟨_, rfl, .inr rfl⟩) ?_
        rw [Multiset.cons_add, Multiset.cons_add, Multiset.cons_swap]
        exact hI.addToken (τ := .listed x) hl rfl (fun _ => rfl) rfl
      · refine .of_eq (exec_increment hs) (.inl ⟨_, rfl, .inl ⟨fun hso => ?_, rfl⟩⟩) ?_
        · have hr := h.refs x
          rw [refs_of_seg hs, hf hso, add_zero] at hr
          have hfree := hk.free
          rw [hf hso, add_zero] at hfree
          have hl : ¬ 1 ≤ w.occ x := fun k => hl ⟨hso, k⟩
          exact Ghost.ref_mem_of_weight hfree (by simp only [u32Max] at hr; omega)
        · rw [Multiset.cons_add]; exact hI

theorem step_decrement {x : SegmentId} (h : Inv D w (g + f))
    (hm : Token.may D data (.decrementRefcount x) g) :
    Steps D data w g f (.decrementRefcount x) := by
  obtain ⟨hx, ht⟩ := hm
  obtain ⟨s, hs, h0, hI⟩ := (h.take hx).decrement ht
  refine .of_eq (exec_decrement hs h0) ⟨_, rfl, fun e => ?_, rfl⟩ ?_
  · have e : s.refCount - 1 = 0 := e
    obtain ⟨s', hs', hr, -⟩ := h.ref_mem ht (Multiset.mem_add.mpr (.inl hx))
    rw [hs] at hs'
    cases hs'
    have h₁ := Ghost.count_le_weight x g
    have h₂ := Multiset.count_pos.mpr hx
    rw [Ghost.weight_add] at hr
    refine ⟨by omega, fun k => ?_⟩
    have := (h.tokens _ (Multiset.mem_add.mpr (.inl k))).2
    omega
  by_cases e : s.refCount - 1 = 0
  · rw [if_pos e] at hI
    rw [if_pos (show (decrement s).refCount = 0 from e), Multiset.cons_add]
    exact hI
  · rw [if_neg e] at hI
    rw [if_neg (show (decrement s).refCount ≠ 0 from e)]
    exact hI

theorem step_deregister {x : SegmentId} {hash : ContentHash} (h : Inv D w (g + f))
    (hm : Token.may D data (.deregisterContent hash x) g) :
    Steps D data w g f (.deregisterContent hash x) := by
  refine ⟨_, ⟨_, rfl, rfl⟩, ?_⟩
  split
  · next e =>
      rw [Multiset.cons_add]
      exact (h.take e).deregister (.inl ⟨rfl, rfl⟩)
  · next e =>
      rw [Multiset.cons_add]
      exact (h.take (hm.resolve_left e)).deregister (.inr ⟨rfl, rfl⟩)

theorem step_remove {x : SegmentId} (h : Inv D w (g + f)) (hf : D.solo → f = 0)
    (hm : Token.may D data (.removeSegment x) g) : Steps D data w g f (.removeSegment x) := by
  refine ⟨_, ⟨_, rfl, rfl⟩, ?_⟩
  split
  · next e => exact (h.take e).removeUnused (.inl rfl)
  split
  · next e => exact (h.take e).removeUnused (.inr rfl)
  · next e₁ e₂ =>
      have e := (hm.resolve_left e₁).resolve_left e₂
      obtain ⟨hso, -⟩ := h.tokens _ (Multiset.mem_add.mpr (.inl e))
      have hI := (h.take e).removeIdle
      rw [hf hso, add_zero] at hI
      rw [hf hso, add_zero]
      exact hI

theorem step_create {id : CapsuleId} {size : Nat} {segments : List SegmentId} {policy : Policy}
    (h : Inv D w (g + f)) (hf : D.solo → f = 0)
    (hm : Token.may D data (.createCapsuleWithSegments id size segments policy) g) :
    Steps D data w g f (.createCapsuleWithSegments id size segments policy) := by
  classical
  obtain ⟨hc, hidle, infos, hk, hs⟩ := hm
  cases hcap : w.cap id with
  | some c =>
      obtain ⟨e, he⟩ : ∃ e, exec data (.createCapsuleWithSegments id size segments policy) w =
          (.error e, w) := exec_create_some hcap
      exact .of_eq he (.inr ⟨e, rfl, rfl⟩) h
  | none =>
      refine .of_eq (exec_create hcap) (.inl ⟨rfl, rfl⟩) ?_
      set g₁ : Ghost := g.filter fun τ => ∀ y hash, τ ≠ .reg y hash with hg₁
      have hsub : (segments.map Token.ref : Multiset Token) ≤ g₁ := by
        refine Multiset.le_iff_count.mpr fun τ => ?_
        by_cases hτ : τ ∈ segments.map Token.ref
        · obtain ⟨x, -, rfl⟩ := List.mem_map.mp hτ
          rw [Multiset.count_filter_of_pos (by simp), Multiset.coe_count,
            List.count_map_of_injective _ _ fun a b e => by cases e; rfl]
          exact hc x
        · rw [Multiset.coe_count, List.count_eq_zero.mpr hτ]; exact Nat.zero_le _
      have hI : Inv D w (g₁ + f) := by
        have := h.filter (p := fun τ => ∀ y hash, τ ≠ .reg y hash) fun τ _ e => by
          push Not at e
          obtain ⟨y, hash, rfl⟩ := e
          trivial
        rwa [Multiset.filter_add, Multiset.filter_eq_self.mpr fun τ hτ y hash =>
          ne_of_mem_of_not_mem hτ (h.frame_reg hf)] at this
      have hk' : List.Forall₂ (w.Known (g₁ - (segments.map Token.ref : Multiset Token) + f))
          segments infos := hk.imp fun x i k => by
        have e := h.tokens _ (Multiset.mem_add.mpr (.inl k))
        refine Known.evolve (.same fun y hy => ?_) e
        obtain ⟨τ, hτ, hy⟩ := Ghost.mem_claims.mp hy
        refine Ghost.mem_claims.mpr ⟨τ, ?_, hy⟩
        refine (Multiset.mem_add.mp hτ).elim (fun k => ?_) fun k => Multiset.mem_add.mpr (.inr k)
        exact Multiset.mem_add.mpr (.inl (Multiset.mem_of_mem_filter
          (Multiset.mem_of_le (Multiset.sub_le_self _ _) k)))
      refine Inv.create ?_ hcap hk' hs (fun x hash k => ?_) fun x k => ?_
      · show Inv D w ((segments.map Token.ref : Multiset Token) + _)
        rwa [← add_assoc, add_tsub_cancel_of_le hsub]
      · rcases Multiset.mem_add.mp k with k | k
        · exact (Multiset.mem_filter.mp (Multiset.mem_of_le (Multiset.sub_le_self _ _) k)).2 _ _ rfl
        · exact h.frame_reg hf k
      · rcases Multiset.mem_add.mp k with k | k
        · exact hidle x (Multiset.mem_of_mem_filter
            (Multiset.mem_of_le (Multiset.sub_le_self _ _) k))
        · exact h.frame_idle hf k

theorem step_delete {id : CapsuleId} (h : Inv D w (g + f)) (hf : D.solo → f = 0)
    (hm : Token.may D data (.deleteCapsule id) g) :
    Steps D data w g f (.deleteCapsule id) := by
  cases hcap : w.cap id with
  | none =>
      obtain ⟨e, he⟩ : ∃ e, exec data (.deleteCapsule id) w = (.error e, w) :=
        exec_delete_none hcap
      exact .of_eq he (.inr ⟨e, rfl, rfl⟩) h
  | some c =>
      refine .of_eq (exec_delete hcap) (.inl ⟨c, rfl, rfl⟩) ?_
      rw [add_assoc]
      refine h.delete hcap fun x k => ?_
      have hso := (h.tokens _ k).1
      exact (Multiset.mem_add.mp k).elim (hm hso x) (h.frame_listed hf)

theorem step_lookupContent {hash : ContentHash} (h : Inv D w (g + f))
    (hok : Allowed D (.lookupContent hash) w) : Steps D data w g f (.lookupContent hash) := by
  cases hc : w.content hash with
  | none =>
      refine ⟨_, .inl ⟨congrArg Except.ok hc, rfl⟩, ?_⟩
      split
      · next hs =>
          rw [Multiset.cons_add]
          exact h.lookup_none hc hs
      · exact h
  | some x =>
      obtain ⟨s, hs, hh, hl, hI⟩ := h.lookup_some hc
      have hf := (h.content hash x hc).1
      rw [Ghost.claims_add, Multiset.mem_add, not_or] at hf
      refine ⟨_, .inr ⟨x, _, congrArg Except.ok hc, hh, hl, hok x s hc hs, hf.1, rfl⟩, ?_⟩
      rw [Multiset.cons_add]
      exact hI

theorem step_currentKey (h : Inv D w (g + f)) : Steps D data w g f .currentKey := by
  have hk := h.keys
  cases hm : w.store.keyManager with
  | none =>
      rw [hm] at hk
      have e : exec data .currentKey w = (.ok none, w) := by
        simp only [exec, StoreOp.exec, Store.currentKey, hm]; rfl
      refine .of_eq e ⟨rfl, none, rfl, ?_⟩ h
      rw [← hk]; rfl
  | some km =>
      rw [hm] at hk
      have e : exec data .currentKey w =
          (.ok (some (km.currentVersion, km.derive km.currentVersion)),
          { w with store := { w.store with
            keyManager := some (km.getKey km.currentVersion).2 } }) := by
        simp only [exec, StoreOp.exec, Store.currentKey, hm, KeyManager.getKey_fst]; rfl
      refine .of_eq e ⟨rfl, _, rfl, ?_⟩ (h.withKey hm _)
      rw [← hk]; exact ⟨_, rfl⟩

theorem step_getKey {v : Option UInt32} (h : Inv D w (g + f)) :
    Steps D data w g f (.getKey v) := by
  refine ⟨g, rfl, ?_⟩
  cases hm : w.store.keyManager with
  | none =>
      rw [show (exec data (.getKey v) w).2 = w by
        simp only [exec, StoreOp.exec, Store.getKey, hm]; rfl]
      exact h
  | some km =>
      cases v with
      | none =>
          rw [show (exec data (.getKey none) w).2 = w by
            simp only [exec, StoreOp.exec, Store.getKey, hm]; rfl]
          exact h
      | some v =>
          rw [show (exec data (.getKey (some v)) w).2 =
            { w with store := { w.store with keyManager := some (km.getKey v).2 } } by
            simp only [exec, StoreOp.exec, Store.getKey, hm]; rfl]
          exact h.withKey hm v

/-- The transaction a token is of, and the only one. -/
theorem step_appendSegment {t : NvramTransaction} {x : SegmentId} {d : Bytes}
    (h : Inv D w (g + f)) (hf : D.solo → f = 0)
    (hm : Token.may D data (.appendSegment t x d) g) :
    Steps D data w g f (.appendSegment t x d) := by
  obtain ⟨hso, hx, ht, hfin⟩ := hm
  obtain rfl := hf hso
  have e : t.appendSegment x d w.store.nvram =
      (.ok (Segment.appended x t.currentOffset (asU32 d.length),
        { t with
          pending := t.pending ++ [⟨Segment.appended x t.currentOffset (asU32 d.length), d⟩]
          currentOffset := t.currentOffset + d.length }),
        { w.store.nvram with nextOffset := t.currentOffset + d.length }) := by
    unfold NvramTransaction.appendSegment NvramTransaction.ensureActive
    rw [hfin]
    rfl
  have e' : exec data (.appendSegment t x d) w =
      (.ok (Segment.appended x t.currentOffset (asU32 d.length),
        { t with
          pending := t.pending ++ [⟨Segment.appended x t.currentOffset (asU32 d.length), d⟩]
          currentOffset := t.currentOffset + d.length }),
        w.moved (t.currentOffset + d.length)) := by
    simp only [exec, StoreOp.exec, e]; rfl
  refine .of_eq e' ⟨rfl, rfl⟩ ?_
  have ht' : t.token ∈ g.erase (.fresh x) := (Multiset.mem_erase_of_ne (by
    simp [NvramTransaction.token])).mpr ht
  have hI := h.take hx
  rw [add_zero, ← Multiset.cons_erase ht'] at hI
  rw [add_zero]
  exact hI.stage

theorem step_commit {t : NvramTransaction} (h : Inv D w (g + f)) (hf : D.solo → f = 0)
    (hm : Token.may D data (.commit t) g) : Steps D data w g f (.commit t) := by
  obtain ⟨hso, ht, hfin, hl⟩ := hm
  obtain rfl := hf hso
  obtain ⟨-, h₁, h₂, h₃, -⟩ := h.tokens _ (Multiset.mem_add.mpr (.inl ht))
  obtain ⟨t', e⟩ : ∃ t', exec data (.commit t) w = (.ok t', w.storedAll t.pending) :=
    exec_commit hfin h₁ (h₂ ▸ h₃)
  refine .of_eq e ⟨⟨t', rfl⟩, rfl⟩ ?_
  rw [add_zero]
  have hI := h.take ht
  rw [add_zero] at hI
  exact hI.commit hl

theorem step_rollback {t : NvramTransaction} (h : Inv D w (g + f)) (hf : D.solo → f = 0)
    (hm : Token.may D data (.rollback t) g) : Steps D data w g f (.rollback t) := by
  obtain ⟨hso, ht, hfin⟩ := hm
  obtain rfl := hf hso
  have e : t.rollback w.store.nvram =
      ({ t with pending := [], currentOffset := t.baseOffset, finalized := true },
        { w.store.nvram with nextOffset := t.baseOffset }) := by
    unfold NvramTransaction.rollback
    rw [hfin]
    rfl
  refine ⟨_, ⟨⟨_, rfl⟩, rfl⟩, ?_⟩
  have hI := h.take ht
  rw [add_zero] at hI
  rw [add_zero, show (exec data (.rollback t) w).2 = w.moved t.baseOffset by
    simp only [exec, StoreOp.exec, e]; rfl]
  exact hI.rollback

/-- **Every allowed call keeps the discipline.** -/
theorem step {o : StoreOp} (hf : D.solo → f = 0) (h : Inv D w (g + f))
    (hm : Token.may D data o g) (hok : Allowed D o w) : Steps D data w g f o := by
  cases o with
  | listCapsules ord => exact ⟨g, rfl, h⟩
  | lookup id => exact ⟨g, rfl, h⟩
  | allocSegment =>
      refine ⟨.fresh ⟨w.next⟩ ::ₘ g, ⟨⟨w.next⟩, rfl, fun k => ?_, fun i k => ?_, rfl⟩, ?_⟩
      · refine Nat.lt_irrefl w.next (h.claimsLt ⟨w.next⟩ ?_)
        rw [Ghost.claims_add]; exact Multiset.mem_add.mpr (.inl k)
      · exact Nat.lt_irrefl w.next (h.tokens _ (Multiset.mem_add.mpr (.inl k))).lt
      rw [Multiset.cons_add]
      exact h.alloc
  | lookupContent hash => exact step_lookupContent h hok
  | registerContent hash x => exact step_register h hf hm
  | deregisterContent hash x => exact step_deregister h hm
  | addDedupedBytes id n => exact ⟨g, ⟨rfl, rfl⟩, h.addDedupedBytes id n⟩
  | deleteCapsule id => exact step_delete h hf hm
  | createCapsuleWithSegments id size segments policy => exact step_create h hf hm
  | listSegments ord =>
      refine ⟨_, ⟨_, rfl, rfl⟩, ?_⟩
      rw [add_assoc]
      refine h.listed fun s hs => Table.mem_values.mp ?_
      exact (Order.mem_reorder ord).mp hs
  | append x d => exact step_append h hf hm
  | incrementRefcount x => exact step_increment h hf hm hok
  | decrementRefcount x => exact step_decrement h hm
  | removeSegment x => exact step_remove h hf hm
  | read x => exact ⟨g, rfl, h⟩
  | getSegmentMetadata x => exact ⟨g, rfl, h⟩
  | updateSegmentMetadata x s => exact step_update h hm
  | beginTransaction =>
      obtain ⟨hso, ht⟩ := hm
      refine ⟨w.store.nvram.beginTransaction.token ::ₘ g, ⟨_, rfl, rfl, rfl, rfl, rfl⟩, ?_⟩
      rw [Multiset.cons_add]
      exact h.begin hso (by rw [Ghost.txns_add, ht, h.frame_txns hf])
  | appendSegment t x d => exact step_appendSegment h hf hm
  | commit t => exact step_commit h hf hm
  | rollback t => exact step_rollback h hf hm
  | currentKey => exact step_currentKey h
  | getKey v => exact step_getKey h

/-- The discipline of a single thread, or of many, on behalf of a write of `data`. -/
noncomputable def protocol (P : Primitives) (D : Discipline) (data : Bytes) :
    Protocol StoreSig Error (World P) Ghost where
  exec := exec data
  ok := Allowed D
  may := Token.may D data
  moves := Token.moves D
  Inv := Inv D
  frame f := D.solo → f = 0
  step hf hI hm hok := step hf hI hm hok

end World

end Space
