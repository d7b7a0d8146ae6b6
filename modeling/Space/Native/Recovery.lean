import Space.Native.ReclaimSpec

/-!
# Native — Recovery

What a crash leaves, and what opening a pipeline makes of it.  An operation is cut at its
boundary, or, if it makes several durable steps, between two of them (`Crash`); what is found on
disk then is `Recoverable`: the capsules still have their segments, the content store still names
segments that are there, and all that can be wrong is a reference count, or a segment too many.

* `Inv.recoverable`: whatever the threads owned when the process stopped.
* `wp_reconcile`: reconciliation makes the counts exact and sweeps what is left over, and is
  itself recoverable wherever it is cut.
-/

namespace Space
open Support Prog

variable {P : Primitives} {D : Discipline} {w : World P} {T : Ghost}

/-- The discipline under the keys of another manager. -/
def Discipline.withKeys (D : Discipline) (km : Option (KeyManager P)) : Discipline :=
  { D with keys := km.map KeyManager.derive }

namespace World

/-- The log with other contents of its file. -/
def withFile (w : World P) (file : Bytes) : World P :=
  w.setNvram { w.store.nvram with file := file }

/-- What a new process finds, with the manager its environment gives it. -/
def reopen (km : Option (KeyManager P)) (w : World P) : World P :=
  ⟨{ w.store.reopen with keyManager := km }, w.ledger⟩

/-- The durable state when an operation is cut: at its boundary, after the payload of an append
and before its segment map, or after some of the payloads of a commit. -/
inductive Crash : StoreOp → World P → World P → Prop where
  | between (o : StoreOp) (w : World P) : Crash o w w
  | append (x : SegmentId) (d : Bytes) (w : World P) :
      Crash (.append x d) w (w.withFile (writeAt 0 w.file w.store.nvram.nextOffset d))
  | commit (t : NvramTransaction) (k : Nat) (w : World P) :
      Crash (.commit t) w (w.withFile (NvramTransaction.writePending (t.pending.take k) w.file))

/-- **What can be repaired.** -/
structure Recoverable (D : Discipline) (w : World P) : Prop where
  keyed : ∀ x s, w.seg x = some s → s.id = x
  extent : ∀ x s, w.seg x = some s → w.Extent x s
  dedup : ∀ x s, w.seg x = some s → s.deduplicated = decide (1 < s.refCount)
  legit : ∀ x s, w.seg x = some s → 0 < w.occ x → D.legit ⟨s.form, w.payload x⟩
  content : ∀ h x, w.content h = some x →
    x.val < w.next ∧ ∃ s, w.seg x = some s ∧ s.contentHash = some h
  indexed : ∀ x s h, w.seg x = some s → s.contentHash = some h → 0 < w.occ x →
    w.content h = some x
  capsules : ∀ id c, w.cap id = some c → w.Sound D 0 id c
  listed : ∀ x, 0 < w.occ x → ∃ s, w.seg x = some s
  bounded : ∀ x, w.occ x ≤ u32Max
  fileEnd : w.store.nvram.nextOffset = w.file.length
  disk : OnDisk w.store
  keys : w.store.keyManager.map KeyManager.derive = D.keys

/-! ### What a crash leaves -/

/-- Writing the pending payloads, when they follow each other from the end of the file on. -/
theorem writePending_append : ∀ {l : List PendingSegment} {file : Bytes} {current : Nat},
    Tiles file.length (l.map fun p => ⟨p.segment.id, p.segment.offset, p.data⟩) current →
    ∀ k, ∃ extra, NvramTransaction.writePending (l.take k) file = file ++ extra
  | [], file, _, _, k => ⟨[], by simp [NvramTransaction.writePending]⟩
  | p :: l, file, _, h, 0 => ⟨[], by simp [NvramTransaction.writePending]⟩
  | p :: l, file, current, h, k + 1 => by
      obtain ⟨ho, ht⟩ := h
      have hw : writeAt 0 file p.segment.offset p.data = file ++ p.data := by
        rw [show p.segment.offset = file.length from ho]; exact writeAt_end _ _ _
      obtain ⟨extra, he⟩ := @writePending_append l (file ++ p.data) current
        (by rw [List.length_append]; exact ht) k
      refine ⟨p.data ++ extra, ?_⟩
      rw [List.take_succ_cons, NvramTransaction.writePending, List.foldl_cons, hw]
      rw [NvramTransaction.writePending] at he
      rw [he, List.append_assoc]

/-- A crash adds bytes to the file, and nothing else. -/
theorem Inv.crash {o : StoreOp} {g : Ghost} {data : Bytes} {w' : World P} (h : Inv D w g)
    (hm : Token.may D data o g) (hc : Crash o w w') :
    ∃ extra, w' = w.withFile (w.file ++ extra) := by
  cases hc with
  | between => exact ⟨[], by rw [List.append_nil]; rfl⟩
  | append x d =>
      refine ⟨d, ?_⟩
      rw [h.fileEnd hm.2, writeAt_end]
  | commit t k =>
      obtain ⟨-, ht, -⟩ := hm
      obtain ⟨-, -, h₂, h₃, -⟩ := h.tokens _ ht
      obtain ⟨extra, he⟩ := @writePending_append t.pending w.file t.currentOffset
        (by rw [h₂]; exact h₃) k
      exact ⟨extra, by rw [he]⟩

/-- A listed segment is nobody's own. -/
theorem Inv.listed_free (h : Inv D w T) {x : SegmentId} (ho : 0 < w.occ x) (hs : w.seg x ≠ none) :
    x ∉ T.claims := fun hx => by
  obtain ⟨τ, hτ, hx⟩ := Ghost.mem_claims.mp hx
  have k := h.tokens τ hτ
  cases τ with
  | fresh y => cases Multiset.mem_singleton.mp hx; exact hs k
  | own s d => cases Multiset.mem_singleton.mp hx; exact Nat.lt_irrefl 0 (k.2.2.2 ▸ ho)
  | txn b c l =>
      obtain ⟨st, hst, rfl⟩ := List.mem_map.mp (Multiset.mem_coe.mp hx)
      exact hs (k.2.2.2.2 st hst)
  | _ => exact Multiset.notMem_zero _ hx

theorem occ_pos {x : SegmentId} (h : 0 < w.occ x) :
    ∃ id c, w.cap id = some c ∧ x ∈ c.segments := by
  obtain ⟨id, c, hc, h⟩ := Table.total_pos.mp h
  exact ⟨id, c, hc, List.count_pos_iff.mp h⟩

/-- The total of a measure depends on its values only. -/
theorem total_congr {f : Capsule → Nat} {m m' : Table CapsuleId Capsule}
    (hf : ∀ c c' : Capsule, c.undeduped = c'.undeduped → f c = f c')
    (h : ∀ id, (m.lookup id).map Capsule.undeduped = (m'.lookup id).map Capsule.undeduped) :
    Table.total f m = Table.total f m' := by
  rw [Table.total_eq_sum_keys, Table.total_eq_sum_keys]
  have hk : m.keys.Perm m'.keys := by
    refine (List.perm_ext_iff_of_nodup m.keys_nodup m'.keys_nodup).mpr fun id => ?_
    rw [← AList.mem_keys, ← AList.mem_keys, ← AList.lookup_isSome, ← AList.lookup_isSome]
    have := congrArg Option.isSome (h id)
    simpa using this
  rw [(hk.map _).sum_eq]
  congr 1
  refine List.map_congr_left fun id _ => ?_
  have := h id
  cases hm : m.lookup id <;> cases hm' : m'.lookup id <;> rw [hm, hm'] at this <;> simp_all
  exact hf _ _ this

/-- **What a crash leaves can be repaired**, whatever was owned when the process stopped. -/
theorem Inv.recoverable (h : Inv D w T) (ht : D.tight) (hs : D.solo)
    (km : Option (KeyManager P)) (extra : Bytes) :
    Recoverable (D.withKeys km) ((w.withFile (w.file ++ extra)).reopen km) := by
  set w' := (w.withFile (w.file ++ extra)).reopen km with hw'
  have hdisk := h.disk
  have hsv : w'.store.registry.toRegistryState = w.store.registry.savedState := by
    show w.store.registry.reopen.toRegistryState = _
    unfold CapsuleRegistry.reopen CapsuleRegistry.savedState
    cases w.store.registry.saved <;> rfl
  have hss : w'.store.registry.savedState = w.store.registry.savedState := by
    show w.store.registry.reopen.savedState = _
    unfold CapsuleRegistry.reopen CapsuleRegistry.savedState
    cases hsv : w.store.registry.saved <;> rfl
  have hseg : ∀ x, w'.seg x = w.seg x := fun x =>
    congrArg (fun m : Table SegmentId Segment => m.lookup x) hdisk.map
  have hcont : ∀ hash, w'.content hash = w.content hash := fun hash => by
    show w'.store.registry.toRegistryState.contentStore.lookup hash = _
    rw [hsv, hdisk.content]; rfl
  have hcap : ∀ id, (w'.cap id).map Capsule.undeduped = (w.cap id).map Capsule.undeduped :=
    fun id => by
      show (w'.store.registry.toRegistryState.capsules.lookup id).map _ = _
      rw [hsv]; exact hdisk.capsules id
  have hnext : w'.next = w.store.registry.savedState.nextSegmentId := by
    show w'.store.registry.toRegistryState.nextSegmentId = _
    rw [hsv]
  have hocc : ∀ x, w'.occ x = w.occ x := fun x =>
    total_congr (fun c c' e => by
      rw [show c.segments = c'.segments from
        show c.undeduped.segments = c'.undeduped.segments by rw [e]]) hcap
  have hcap' {id c} (k : w'.cap id = some c) :
      ∃ c', w.cap id = some c' ∧ c'.undeduped = c.undeduped := by
    have e := hcap id
    rw [k] at e
    obtain ⟨c', hc', e'⟩ := Option.map_eq_some_iff.mp e.symm
    exact ⟨c', hc', e'⟩
  have hsegs {c c' : Capsule} (e : c'.undeduped = c.undeduped) : c'.segments = c.segments ∧
      c'.policy = c.policy :=
    ⟨show c'.undeduped.segments = c.undeduped.segments by rw [e],
      show c'.undeduped.policy = c.undeduped.policy by rw [e]⟩
  have hlisted : ∀ x, 0 < w.occ x → ∃ s, w.seg x = some s := fun x ho => by
    have hr := h.refs x
    refine Option.ne_none_iff_exists'.mp fun e => ?_
    rw [refs_of_none e] at hr
    simp only [u32Max] at hr
    omega
  have hfree : ∀ x s, w.seg x = some s → 0 < w.occ x → x ∉ T.claims := fun x s hx ho =>
    h.listed_free ho (by rw [hx]; simp)
  exact {
    keyed := fun x s hx => (h.keyed x s ((hseg x).symm.trans hx)).1
    extent := fun x s hx => (h.extent x s ((hseg x).symm.trans hx)).grow (d := extra) rfl rfl
    dedup := fun x s hx => h.dedup x s ((hseg x).symm.trans hx)
    legit := fun x s hx ho => by
      rw [hocc] at ho
      have hx := (hseg x).symm.trans hx
      exact h.legit x s hx (hfree x s hx ho)
    content := fun hash x hx => by
      rw [hcont] at hx
      obtain ⟨-, s, hs, hh⟩ := h.content hash x hx
      exact ⟨hnext ▸ hdisk.contentLt hash x hx, s, (hseg x).trans hs, hh⟩
    indexed := fun x s hash hx hh ho => by
      rw [hocc] at ho
      have hx := (hseg x).symm.trans hx
      rw [hcont]
      refine (h.indexed hs x s hash hx hh).resolve_right fun k => ?_
      rcases k with k | k | k
      · exact hfree x s hx ho k
      · have hr := h.refs x
        rw [(h.tokens _ k).1.refs] at hr
        simp only [u32Max] at hr
        omega
      · have := (h.tokens _ k).2.1.occ
        omega
    capsules := fun id c k => by
      obtain ⟨c', hc', e⟩ := hcap' k
      obtain ⟨infos, h₁, h₂, h₃⟩ := h.capsules id c' hc'
      obtain ⟨e₁, e₂⟩ := hsegs e
      refine ⟨infos, ?_, e₂ ▸ h₂, h₃⟩
      rw [← e₁]
      refine List.forall₂_iff_get.mpr ⟨h₁.length_eq, fun i hi hi' => ?_⟩
      have k := (List.forall₂_iff_get.mp h₁).2 i hi hi'
      refine ⟨?_, Multiset.notMem_zero _, k.payload, fun s hs => k.form s ((hseg _).symm.trans hs)⟩
      rw [hnext]
      exact hdisk.capsuleLt id c' hc' _ (List.get_mem _ _)
    listed := fun x ho => by
      rw [hocc] at ho
      obtain ⟨s, hs⟩ := hlisted x ho
      exact ⟨s, (hseg x).trans hs⟩
    bounded := fun x => by
      rw [hocc]
      have := h.bounded ht x
      omega
    fileEnd := rfl
    disk := {
      map := by
        show w.store.nvram.savedMap.getD ∅ = w.store.nvram.savedMap.getD ∅
        rfl
      capsules := fun id => by
        rw [hss, ← hsv]
      content := by rw [hss, ← hsv]
      next := by rw [hss, ← hsv]
      contentLt := fun hash x hx => by
        rw [hss]
        refine hdisk.contentLt hash x ?_
        exact (hcont hash).symm.trans hx
      capsuleLt := fun id c k x hx => by
        obtain ⟨c', hc', e⟩ := hcap' k
        rw [hss]
        exact hdisk.capsuleLt id c' hc' x ((hsegs e).1 ▸ hx) }
    keys := rfl }

/-! ### What reconciliation does -/

namespace Recoverable

theorem put (h : Recoverable D w) {x : SegmentId} {s s' : Segment} (hs : w.seg x = some s)
    (hf : s'.form = s.form) (ho : s'.offset = s.offset)
    (hd : s'.deduplicated = decide (1 < s'.refCount)) : Recoverable D (w.putSegment x s') := by
  have hcases {y s₁} (k : (w.putSegment x s').seg y = some s₁) :
      ∃ s₀, w.seg y = some s₀ ∧ s₁.form = s₀.form ∧ s₁.offset = s₀.offset ∧
        s₁.deduplicated = decide (1 < s₁.refCount) := by
    rw [seg_putSegment] at k
    split at k
    · next e => cases k; subst e; exact ⟨s, hs, hf, ho, hd⟩
    · exact ⟨s₁, k, rfl, rfl, h.dedup y s₁ k⟩
  have hsome {y s₁} (k : w.seg y = some s₁) :
      ∃ s₂, (w.putSegment x s').seg y = some s₂ ∧ s₂.form = s₁.form := by
    rw [seg_putSegment]
    split
    · next e => subst e; rw [hs] at k; cases k; exact ⟨s', rfl, hf⟩
    · exact ⟨s₁, k, rfl⟩
  have hform {s₁ s₀ : Segment} (e : s₁.form = s₀.form) :
      s₁.id = s₀.id ∧ s₁.len = s₀.len ∧ s₁.contentHash = s₀.contentHash :=
    ⟨show s₁.form.id = s₀.form.id by rw [e], show s₁.form.len = s₀.form.len by rw [e],
      contentHash_of_form e⟩
  exact {
    keyed := fun y s₁ k => by
      obtain ⟨s₀, k, e, -⟩ := hcases k
      exact (hform e).1.trans (h.keyed y s₀ k)
    extent := fun y s₁ k => by
      obtain ⟨s₀, k, e, e', -⟩ := hcases k
      obtain ⟨h₁, h₂, h₃⟩ := h.extent y s₀ k
      exact ⟨(hform e).2.1.trans h₁, e' ▸ h₂, e' ▸ h₃⟩
    dedup := fun y s₁ k => by
      obtain ⟨s₀, k, -, -, e⟩ := hcases k
      exact e
    legit := fun y s₁ k hy => by
      obtain ⟨s₀, k, e, -⟩ := hcases k
      rw [e]; exact h.legit y s₀ k hy
    content := fun hash y hy => by
      obtain ⟨hlt, s₁, k, hh⟩ := h.content hash y hy
      obtain ⟨s₂, k, e⟩ := hsome k
      exact ⟨hlt, s₂, k, (hform e).2.2.trans hh⟩
    indexed := fun y s₁ hash k hh hy => by
      obtain ⟨s₀, k, e, -⟩ := hcases k
      exact h.indexed y s₀ hash k ((hform e).2.2.symm.trans hh) hy
    capsules := fun id c hc => by
      obtain ⟨infos, h₁, h₂, h₃⟩ := h.capsules id c hc
      refine ⟨infos, h₁.imp fun y i k => ⟨k.lt, k.free, k.payload, fun s₁ k₁ => ?_⟩, h₂, h₃⟩
      obtain ⟨s₀, k₀, e, -⟩ := hcases k₁
      exact e.trans (k.form s₀ k₀)
    listed := fun y hy => by
      obtain ⟨s₁, k⟩ := h.listed y hy
      obtain ⟨s₂, k, -⟩ := hsome k
      exact ⟨s₂, k⟩
    bounded := h.bounded
    fileEnd := h.fileEnd
    disk := onDisk_withMap h.disk
    keys := h.keys }

/-- A segment no capsule lists, deregistered. -/
theorem deregister (h : Recoverable D w) {x : SegmentId} {hash : ContentHash}
    (ho : w.occ x = 0) : Recoverable D (w.deregistered hash x) := by
  by_cases e : w.content hash = some x
  · rw [deregistered_of_eq e]
    have hcont {hsh y} (k : (w.contentErased hash).content hsh = some y) :
        w.content hsh = some y := by
      rw [content_contentErased] at k
      split at k
      · cases k
      · exact k
    exact {
      keyed := h.keyed
      extent := fun y s k =>
        ⟨(h.extent y s k).len, (h.extent y s k).inside, (h.extent y s k).stored⟩
      dedup := h.dedup
      legit := h.legit
      content := fun hsh y k => h.content hsh y (hcont k)
      indexed := fun y s hsh k hh hy => by
        have k' := h.indexed y s hsh k hh hy
        rw [content_contentErased, if_neg]
        · exact k'
        · rintro rfl
          rw [e] at k'; cases k'
          exact Nat.lt_irrefl 0 (ho ▸ hy)
      capsules := fun id c hc => by
        obtain ⟨infos, h₁, h₂, h₃⟩ := h.capsules id c hc
        exact ⟨infos, h₁.imp fun y i k => ⟨k.lt, k.free, k.payload, k.form⟩, h₂, h₃⟩
      listed := h.listed
      bounded := h.bounded
      fileEnd := h.fileEnd
      disk := onDisk_save h.disk (fun hsh y k => (h.content hsh y (hcont k)).1)
        fun id c hc y hy => by
          obtain ⟨infos, h₁, -⟩ := h.capsules id c hc
          obtain ⟨i, -, hi⟩ := forall₂_mem_left h₁ hy
          exact hi.lt
      keys := h.keys }
  · rwa [deregistered_of_ne e]

/-- A segment that neither a capsule nor the content store names, dropped. -/
theorem drop (h : Recoverable D w) {x : SegmentId} (ho : w.occ x = 0)
    (hc : ∀ hash, w.content hash ≠ some x) : Recoverable D (w.dropSegment x) := by
  have hsome {y s} (k : (w.dropSegment x).seg y = some s) : w.seg y = some s :=
    (seg_dropSegment_eq_some.mp k).2
  have hback {y s} (k : w.seg y = some s) (hy : y ≠ x) : (w.dropSegment x).seg y = some s :=
    seg_dropSegment_eq_some.mpr ⟨hy, k⟩
  exact {
    keyed := fun y s k => h.keyed y s (hsome k)
    extent := fun y s k =>
      have e := h.extent y s (hsome k)
      ⟨e.len, e.inside, e.stored⟩
    dedup := fun y s k => h.dedup y s (hsome k)
    legit := fun y s k hy => h.legit y s (hsome k) hy
    content := fun hash y k => by
      obtain ⟨hlt, s, hs, hh⟩ := h.content hash y k
      refine ⟨hlt, s, hback hs ?_, hh⟩
      rintro rfl
      exact hc hash k
    indexed := fun y s hash k hh hy => h.indexed y s hash (hsome k) hh hy
    capsules := fun id c k => by
      obtain ⟨infos, h₁, h₂, h₃⟩ := h.capsules id c k
      exact ⟨infos, h₁.imp fun y i k => ⟨k.lt, k.free, k.payload, fun s e => k.form s (hsome e)⟩,
        h₂, h₃⟩
    listed := fun y hy => by
      obtain ⟨s, hs⟩ := h.listed y hy
      refine ⟨s, hback hs ?_⟩
      rintro rfl
      exact Nat.lt_irrefl 0 (ho ▸ hy)
    bounded := h.bounded
    fileEnd := h.fileEnd
    disk := onDisk_withMap h.disk
    keys := h.keys }

/-- **Exact counts and nothing left over: the invariant.** -/
theorem inv (h : Recoverable D w)
    (hr : ∀ x s, w.seg x = some s → s.refCount = w.occ x ∧ s.refCount ≠ 0) : Inv D w 0 where
  refs := fun x => by
    cases hs : w.seg x with
    | none =>
        rw [refs_of_none hs, Ghost.weight_zero]
        have : w.occ x = 0 := by
          by_contra ho
          obtain ⟨s, k⟩ := h.listed x (Nat.pos_of_ne_zero ho)
          rw [hs] at k; cases k
        rw [this]; rfl
    | some s =>
        rw [refs_of_seg hs, (hr x s hs).1, Ghost.weight_zero]
        exact (Nat.min_eq_right (h.bounded x)).symm
  bounded := fun _ x => h.bounded x
  keyed := fun x s hs => by
    refine ⟨h.keyed x s hs, ?_⟩
    obtain ⟨h₁, h₂⟩ := hr x s hs
    obtain ⟨id, c, hc, hx⟩ := occ_pos (w := w) (x := x) (by omega)
    obtain ⟨infos, h₁, -⟩ := h.capsules id c hc
    obtain ⟨i, -, hi⟩ := forall₂_mem_left h₁ hx
    exact hi.lt
  extent := h.extent
  dedup := h.dedup
  legit := fun x s hs _ => h.legit x s hs (by have := hr x s hs; omega)
  content := fun hash x k => ⟨Multiset.notMem_zero _, (h.content hash x k).2⟩
  indexed := fun _ x s hash hs hh => .inl (h.indexed x s hash hs hh (by have := hr x s hs; omega))
  capsules := h.capsules
  claimsNodup := Multiset.nodup_zero
  claimsLt := fun x hx => absurd hx (Multiset.notMem_zero x)
  tokens := fun τ hτ => absurd hτ (Multiset.notMem_zero τ)
  zero := fun x s hs h0 => absurd h0 (hr x s hs).2
  fileEnd := fun _ => h.fileEnd
  oneTxn := Nat.zero_le _
  disk := h.disk
  keys := h.keys

end Recoverable

end World

end Space
