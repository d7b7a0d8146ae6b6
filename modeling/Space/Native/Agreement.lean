import Space.Native.Staging

/-!
# Native — Agreement

The asynchronous write ends like the synchronous one.  After the coordinator has committed some
chunks, its state over the store is the state of a synchronous write after the same chunks: the
staged segments, put over the segment map, are the segments the other stored, and the staged
hashes, put over the content store, those it registered (`Agrees`).  The order in which the chunks
arrive does not matter, as they are committed in the order of the capsule.

* `Agrees.step`: committing a chunk keeps the two together.
* `writeAsync_agrees`: from one state, the two writes leave the same segments, hashes and capsule.
  The content store must not name a stored segment by an identifier that is still to be drawn.
-/

namespace Space
open Support Prog

variable {P : Primitives} {policy : Policy}

/-! ### What a chunk does to the store -/

namespace Store
variable {s s' s'' : Store P}

/-- A state in which the content store names no stored segment by an identifier still to be
drawn. -/
def NamesDrawn (s : Store P) : Prop := ∀ h x segment, s.content h = some x →
  s.seg x = some segment → x.val < s.registry.nextSegmentId

/-- A prepared chunk was stored as a segment of its own. -/
structure Stored (policy : Policy) (p : SegmentPrepared) (s s' : Store P) : Prop where
  capsules : s'.registry.capsules = s.registry.capsules
  next : s'.registry.nextSegmentId = s.registry.nextSegmentId + 1
  content : ∀ h, s'.content h =
    if policy.dedupe = true ∧ h = p.contentHash then some ⟨s.registry.nextSegmentId⟩
    else s.content h
  file : s'.nvram.file = writeAt 0 s.nvram.file s.nvram.nextOffset p.finalData
  offset : s'.nvram.nextOffset = s.nvram.nextOffset + p.finalData.length
  key : s'.currentKey.1 = s.currentKey.1
  seg : ∀ y, s'.seg y =
    if y = ⟨s.registry.nextSegmentId⟩ then
      some (p.segment policy ⟨s.registry.nextSegmentId⟩ s.nvram.nextOffset)
    else s.seg y

end Store

/-- The states that are reached are such states. -/
theorem World.Inv.namesDrawn {D : Discipline} {w : World P} {g : Ghost} (h : World.Inv D w g) :
    w.store.NamesDrawn := fun _ x segment _ hx => (h.keyed x segment hx).2

namespace WritePipeline
variable {s s' s₀ : Store P}

/-- What the programs of this module run on. -/
abbrev Direct (P : Primitives) : Moves StoreSig Error (Store P) := (StoreOp.exec (P := P)).moves

theorem wp_encryptionKey_store {Q : Except Error (Option (UInt32 × XtsKeyPair)) → Store P → Prop}
    (h : ∀ s', s.Rekeyed s' → Q (.ok (s.keyFor policy)) s') :
    (encryptionKey policy).wp (Direct P) (fun _ _ => True) Q s :=
  wp_never (n := 0) (wp_encryptionKey_undo h)

/-- A reference is taken on a segment, if it is there. -/
theorem wp_incrementRefcount_store {x : SegmentId} {Q : Except Error Segment → Store P → Prop}
    (herr : ∀ e, s.seg x = none → Q (.error e) s)
    (hok : ∀ t s', s.Took s' x t → Q (.ok t.taken) s') :
    (Prog.perform (S := StoreSig) (.incrementRefcount x) : Native Segment).wp (Direct P)
      (fun _ _ => True) Q s :=
  wp_never (n := 0) (wp_incrementRefcount_undo herr (fun t s' _ ht => hok t s' ht)
    fun _ _ _ hlate => absurd hlate nofun)

/-- Preparing a chunk. -/
theorem wp_prepareSegment_store {chunk : Bytes × Nat} {u : Store P}
    {Q : Except Error SegmentPrepared → Store P → Prop}
    (herr : ∀ e u', sealedChunk P (u.keyFor policy) policy chunk = none → u.Rekeyed u' →
      Q (.error e) u')
    (hok : ∀ p u', sealedChunk P (u.keyFor policy) policy chunk = some p → u.Rekeyed u' →
      Q (.ok p) u') : (prepareSegment P policy chunk).wp (Direct P) (fun _ _ => True) Q u :=
  wp_never (n := 0) (wp_prepareSegment_undo herr hok)

/-- **Committing a chunk.** -/
theorem wp_commitSegment_store {p : SegmentPrepared} {t : NvramTransaction}
    {staged : Table ContentHash SegmentId}
    {Q : Except Error (CommitOutcome × NvramTransaction × Table ContentHash SegmentId) →
      Store P → Prop}
    (hf : t.finalized = false) (hnew : ∀ q ∈ t.pending, q.segment.id ≠ ⟨s.registry.nextSegmentId⟩)
    (herr : ∀ e, Dangling s p t staged → Q (.error e) s)
    (hreuse : ∀ a q b, policy.dedupe = true → staged.lookup p.contentHash = some q.segment.id →
      t.pending = a ++ q :: b → Q (.ok (⟨q.segment.id, .reusedStaged, q.segment.len, none⟩,
        { t with pending := a ++ { q with segment := q.segment.reuse } :: b }, staged)) s)
    (htook : ∀ x u s', policy.dedupe = true → staged.lookup p.contentHash = none →
      s.content p.contentHash = some x → s.Took s' x u →
      Q (.ok (⟨x, .reusedPersistent, u.len, none⟩, t, staged)) s')
    (hstaged : ∀ s', (policy.dedupe = true → staged.lookup p.contentHash = none ∧
        s.content p.contentHash = none) → s.Drew s' →
      Q (.ok (⟨⟨s.registry.nextSegmentId⟩, .newSegment, p.finalData.length,
        if policy.dedupe then some p.contentHash else none⟩,
        staging policy p ⟨s.registry.nextSegmentId⟩ t,
        stagedHash policy p ⟨s.registry.nextSegmentId⟩ staged)) s') :
    (commitSegment policy p t staged).wp (Direct P) (fun _ _ => True) Q s :=
  wp_never (n := 0) (wp_commitSegment_undo hf hnew herr hreuse
    (fun x u s' hd hl hc _ ht => htook x u s' hd hl hc ht)
    (fun _ _ _ _ _ _ _ hlate _ => absurd hlate nofun) hstaged)

/-- Taking a reference, after a key was drawn. -/
theorem took_of_rekeyed {s₁ : Store P} {x : SegmentId} {t : Segment} (hr : s.Rekeyed s₁)
    (h : s₁.Took s' x t) : s.Took s' x t := by
  obtain ⟨h₁, h₂, h₃, h₄, h₅, h₆, h₇, h₈⟩ := h
  have hseg : ∀ y, s₁.seg y = s.seg y := fun y => by unfold Store.seg; rw [hr.nvram]
  rw [hr.registry] at h₁ h₂ h₃
  rw [hr.nvram] at h₄ h₅
  exact ⟨h₁, h₂, h₃, h₄, h₅, h₆.trans hr.key, hseg x ▸ h₇, fun y => hseg y ▸ h₈ y⟩

/-- The state after a payload was stored under a new identifier. -/
def afterNew (s : Store P) (policy : Policy) (p : SegmentPrepared) : Store P :=
  let x : SegmentId := ⟨s.registry.nextSegmentId⟩
  { s with
    registry := s.registry.allocSegment.2
    nvram := (s.nvram.append x p.finalData).2.updateSegmentMetadata x
      (p.segment policy x s.nvram.nextOffset) }

theorem wp_storeNew_store {p : SegmentPrepared} {hash : Option ContentHash}
    {Q : Except Error SegmentId → Store P → Prop}
    (hh : hash = if policy.dedupe then some p.contentHash else none)
    (h : Q (.ok ⟨s.registry.nextSegmentId⟩) (afterNew s policy p)) :
    (storeNew p.finalData p.compResult hash p.encryptionMeta).wp (Direct P) (fun _ _ => True)
      Q s := by
  subst hh
  unfold storeNew
  refine wp_bind.mpr (wp_storeOp .allocSegment ?_)
  refine wp_bind.mpr (wp_mapError.mpr (wp_storeOp (.append _ p.finalData) ?_))
  exact wp_bind.mpr (wp_mapError.mpr (wp_storeOp (.updateSegmentMetadata _ _) h))

/-- What that is, once the hash is registered as well. -/
theorem stored_afterNew {s₁ : Store P} {p : SegmentPrepared} (hr : s.Rekeyed s₁)
    (hs : s' = if policy.dedupe then { afterNew s₁ policy p with
        registry := (afterNew s₁ policy p).registry.registerContent p.contentHash
          ⟨s.registry.nextSegmentId⟩ }
      else afterNew s₁ policy p) : s.Stored policy p s' := by
  have hreg := hr.registry
  have hnv := hr.nvram
  have hk : s₁.currentKey.1 = s.currentKey.1 := hr.key
  obtain ⟨reg, nv, km⟩ := s₁
  cases hreg
  cases hnv
  have hkey : ∀ s' : Store P, s'.keyManager = km → s'.currentKey.1 = s.currentKey.1 :=
    fun s' e => (Store.currentKey_congr (s := ⟨s.registry, s.nvram, km⟩) e).trans hk
  have hseg : ∀ y, (afterNew (⟨s.registry, s.nvram, km⟩ : Store P) policy p).seg y =
      if y = ⟨s.registry.nextSegmentId⟩ then
        some (p.segment policy ⟨s.registry.nextSegmentId⟩ s.nvram.nextOffset)
      else s.seg y := by
    intro y
    refine (Table.lookup_insert _ _ _ _).trans ?_
    split
    · rfl
    · next hy => exact (Table.lookup_insert _ _ _ _).trans (if_neg hy)
  by_cases hd : policy.dedupe = true
  · rw [if_pos hd] at hs
    subst hs
    refine ⟨rfl, rfl, fun h => ?_, rfl, rfl, hkey _ rfl, hseg⟩
    refine (Table.lookup_insert _ _ _ _).trans ?_
    simp only [hd, true_and]
    rfl
  · rw [if_neg hd] at hs
    subst hs
    refine ⟨rfl, rfl, fun h => ?_, rfl, rfl, hkey _ rfl, hseg⟩
    rw [if_neg fun k => hd k.1]
    rfl

/-- A chunk that cannot be stored: if it can be prepared, its hash names a segment that is not
there. -/
def Refused (s : Store P) (policy : Policy) (chunk : Bytes × Nat) : Prop :=
  ∀ p, sealedChunk P (s.keyFor policy) policy chunk = some p → policy.dedupe = true ∧
    ∃ x, s.content p.contentHash = some x ∧ s.seg x = none

/-- **A chunk of the synchronous write.** -/
theorem wp_writeChunk_store {st : WriteState} {chunk : Bytes × Nat}
    {Q : Except Error WriteState → Store P → Prop}
    (herr : ∀ e s', Refused s policy chunk → s.Rekeyed s' → Q (.error e) s')
    (htook : ∀ p x t s', sealedChunk P (s.keyFor policy) policy chunk = some p →
      policy.dedupe = true → s.content p.contentHash = some x → s.Took s' x t →
      Q (.ok (st.push x t.len true)) s')
    (hstored : ∀ p s', sealedChunk P (s.keyFor policy) policy chunk = some p →
      (policy.dedupe = true → s.content p.contentHash = none) → s.Stored policy p s' →
      Q (.ok (st.push ⟨s.registry.nextSegmentId⟩ p.finalData.length false)) s') :
    (writeChunk P policy st chunk).wp (Direct P) (fun _ _ => True) Q s := by
  unfold writeChunk
  refine wp_bind.mpr (wp_lift.mpr ?_)
  cases hc : compressSegment P chunk.1 policy.compression with
  | error e =>
      refine herr _ _ (fun p hp => ?_) (.refl s)
      simp only [sealedChunk, hc] at hp
      cases hp
  | ok viewed =>
      obtain ⟨view, r⟩ := viewed
      refine wp_bind.mpr (wp_encryptionKey_store fun s₁ hr => wp_bind.mpr (wp_lift.mpr ?_))
      cases hs : sealView P (s.keyFor policy) view (hashContent P view) with
      | error e =>
          refine herr _ _ (fun p hp => ?_) hr
          simp only [sealedChunk, hc, hs] at hp
          cases hp
      | ok final =>
          obtain ⟨payload, m⟩ := final
          set p : SegmentPrepared := ⟨chunk.2, hashContent P view, payload, r, m⟩ with hpdef
          have hp : sealedChunk P (s.keyFor policy) policy chunk = some p := by
            simp only [sealedChunk, hc, hs, hpdef]
          have hnext : (⟨s₁.registry.nextSegmentId⟩ : SegmentId) = ⟨s.registry.nextSegmentId⟩ := by
            rw [hr.registry]
          show Prog.wp (Direct P) (fun _ _ => True) Q (if policy.dedupe then _ else _) s₁
          by_cases hd : policy.dedupe = true
          · rw [if_pos hd]
            refine wp_bind.mpr (wp_storeOp (.lookupContent p.contentHash) ?_)
            have hlookup : s₁.registry.lookupContent p.contentHash = s.content p.contentHash := by
              rw [hr.registry]
              rfl
            simp only [StoreOp.exec, hlookup]
            cases hl : s.content p.contentHash with
            | some x =>
                refine wp_bind.mpr (wp_mapError.mpr (wp_incrementRefcount_store
                  (fun e hx => herr _ _ (fun p' hp' => ?_) hr) fun t s' ht => ?_))
                · rw [hp, Option.some.injEq] at hp'
                  subst hp'
                  refine ⟨hd, x, hl, ?_⟩
                  unfold Store.seg at hx ⊢
                  rw [← hr.nvram, hx]
                · exact htook p x t s' hp hd hl (took_of_rekeyed hr ht)
            | none =>
                refine wp_bind.mpr (wp_storeNew_store (p := p) (if_pos hd).symm ?_)
                refine wp_bind.mpr (wp_mapError.mpr (wp_storeOp (.registerContent _ _) ?_))
                rw [hnext]
                exact hstored p _ hp (fun _ => hl) (stored_afterNew hr (by rw [if_pos hd]; rfl))
          · rw [if_neg hd]
            refine wp_bind.mpr (wp_storeNew_store (p := p) (if_neg hd).symm ?_)
            rw [hnext]
            exact hstored p _ hp (fun k => absurd k hd) (stored_afterNew hr (by rw [if_neg hd]))

/-! ### The two side by side -/

/-- Hashes put over a content store, in order. -/
def registerIn (l : List (ContentHash × SegmentId)) (m : Table ContentHash SegmentId) :
    Table ContentHash SegmentId := l.foldl (fun m r => m.insert r.1 r.2) m

theorem registerIn_snoc {l : List (ContentHash × SegmentId)} {r : ContentHash × SegmentId}
    {m : Table ContentHash SegmentId} :
    registerIn (l ++ [r]) m = (registerIn l m).insert r.1 r.2 := List.foldl_append

/-- Both writes began in `s₀`.  The synchronous one is in `st` over `s`, the asynchronous one in
`a` over `u`. -/
structure Agrees (s₀ : Store P) (st : WriteState) (s : Store P) (a : AsyncState) (u : Store P) :
    Prop where
  ids : a.segmentIds = st.segmentIds
  active : a.transaction.finalized = false
  next : u.registry.nextSegmentId = s.registry.nextSegmentId
  nextLe : s₀.registry.nextSegmentId ≤ s.registry.nextSegmentId
  capsules : s.registry.capsules = s₀.registry.capsules
  capsules' : u.registry.capsules = s₀.registry.capsules
  contentStore : u.registry.contentStore = s₀.registry.contentStore
  stats : a.dedupStats.bytesSaved = st.dedupStats.bytesSaved
  content : ∀ h, s.content h = (a.stagedContent.lookup h).or (s₀.content h)
  registered : ∀ h,
    (registerIn a.pendingRegistrations s₀.registry.contentStore).lookup h = s.content h
  offset : a.transaction.currentOffset = s.nvram.nextOffset
  file : NvramTransaction.writePending a.transaction.pending u.nvram.file = s.nvram.file
  map : ∀ x, ((NvramTransaction.installPending a.transaction.pending u.nvram.segmentMap).lookup
    x).map Segment.unread = (s.seg x).map Segment.unread
  pendingIds : (a.transaction.pending.map fun q => q.segment.id).Nodup
  pendingNew : ∀ q ∈ a.transaction.pending, s₀.registry.nextSegmentId ≤ q.segment.id.val ∧
    q.segment.id.val < s.registry.nextSegmentId
  staged : ∀ h x, a.stagedContent.lookup h = some x →
    ∃ q ∈ a.transaction.pending, q.segment.id = x
  stored : ∀ x, u.seg x = none ↔ s₀.seg x = none
  key : s.currentKey.1 = s₀.currentKey.1
  key' : u.currentKey.1 = s₀.currentKey.1

/-- The two ways a chunk of the synchronous write can end. -/
theorem writeChunk_cases {st st' : WriteState} {chunk : Bytes × Nat}
    (h : (writeChunk P policy st chunk).run StoreOp.exec s = (.ok st', s')) :
    ∃ p, sealedChunk P (s.keyFor policy) policy chunk = some p ∧
      ((∃ x t, policy.dedupe = true ∧ s.content p.contentHash = some x ∧ s.Took s' x t ∧
          st' = st.push x t.len true) ∨
        ((policy.dedupe = true → s.content p.contentHash = none) ∧ s.Stored policy p s' ∧
          st' = st.push ⟨s.registry.nextSegmentId⟩ p.finalData.length false)) := by
  have hw : (writeChunk P policy st chunk).wp (Direct P) (fun _ _ => True)
      (fun r s' => ∀ st', r = .ok st' → ∃ p, sealedChunk P (s.keyFor policy) policy chunk = some p ∧
        ((∃ x t, policy.dedupe = true ∧ s.content p.contentHash = some x ∧ s.Took s' x t ∧
            st' = st.push x t.len true) ∨
          ((policy.dedupe = true → s.content p.contentHash = none) ∧ s.Stored policy p s' ∧
            st' = st.push ⟨s.registry.nextSegmentId⟩ p.finalData.length false))) s := by
    refine wp_writeChunk_store (fun e s' _ _ => nofun) ?_ ?_
    · rintro p x t s' hp hd hl ht st' hst
      cases hst
      exact ⟨p, hp, .inl ⟨x, t, hd, hl, ht, rfl⟩⟩
    · rintro p s' hp hn hs st' hst
      cases hst
      exact ⟨p, hp, .inr ⟨hn, hs, rfl⟩⟩
  have hrun := wp_run hw
  rw [h] at hrun
  exact hrun st' rfl

/-- It ends in one of them unless the chunk is refused. -/
theorem writeChunk_ok (st : WriteState) {chunk : Bytes × Nat} (h : ¬ Refused s policy chunk) :
    ∃ st' s', (writeChunk P policy st chunk).run StoreOp.exec s = (.ok st', s') := by
  have hw : (writeChunk P policy st chunk).wp (Direct P) (fun _ _ => True)
      (fun r _ => ∃ st', r = .ok st') s :=
    wp_writeChunk_store (fun _ _ k _ => absurd k h) (fun _ _ _ _ _ _ _ _ => ⟨_, rfl⟩)
      fun _ _ _ _ _ => ⟨_, rfl⟩
  obtain ⟨st', hst⟩ := wp_run hw
  exact ⟨st', _, Prod.ext hst rfl⟩

namespace Agrees
variable {st : WriteState} {a : AsyncState} {u u' : Store P}

/-- The segment a staged hash names, on both sides. -/
theorem pending_seg (h : Agrees s₀ st s a u) {l r : List PendingSegment} {q : PendingSegment}
    (hp : a.transaction.pending = l ++ q :: r) :
    (s.seg q.segment.id).map Segment.unread = some q.segment.unread := by
  rw [← h.map, hp, NvramTransaction.lookup_installPending_mem (hp ▸ h.pendingIds)]
  rfl

/-- A segment that is not pending, on both sides. -/
theorem stored_seg (h : Agrees s₀ st s a u) {x : SegmentId}
    (hx : ∀ q ∈ a.transaction.pending, q.segment.id ≠ x) :
    (u.seg x).map Segment.unread = (s.seg x).map Segment.unread := by
  rw [← h.map, NvramTransaction.lookup_installPending_of_not_mem hx]
  rfl

/-- **A staged segment is reused**, and the stored one with it. -/
theorem reuse (h : Agrees s₀ st s a u) {l r : List PendingSegment} {q : PendingSegment}
    {t : Segment} (hp : a.transaction.pending = l ++ q :: r) (ht : s.Took s' q.segment.id t) :
    Agrees s₀ (st.push q.segment.id t.len true) s'
      (a.committed ⟨q.segment.id, .reusedStaged, q.segment.len, none⟩ { a.transaction with
        pending := l ++ { q with segment := q.segment.reuse } :: r } a.stagedContent) u := by
  set pending : List PendingSegment := l ++ { q with segment := q.segment.reuse } :: r with hpend
  have hids : pending.map (fun p => p.segment.id) =
      a.transaction.pending.map fun p => p.segment.id := by
    rw [hp, hpend, List.map_append, List.map_append]
    rfl
  have hmem : ∀ x, (∃ p ∈ pending, p.segment.id = x) ↔
      ∃ p ∈ a.transaction.pending, p.segment.id = x := fun x => by
    rw [← List.mem_map, ← List.mem_map, hids]
  have hcontent : ∀ k, s'.content k = s.content k := fun k =>
    congrArg (fun m : Table ContentHash SegmentId => m.lookup k) ht.contentStore
  have hunread : t.unread = q.segment.unread := by
    have ht' := h.pending_seg hp
    rwa [ht.old, Option.map_some, Option.some.injEq] at ht'
  have hlen : q.segment.unread.len = t.unread.len := congrArg Segment.len hunread.symm
  have hmap : ∀ x, ((NvramTransaction.installPending pending u.nvram.segmentMap).lookup x).map
      Segment.unread = (s'.seg x).map Segment.unread := by
    intro x
    rw [ht.seg]
    by_cases e : x = q.segment.id
    · subst e
      rw [if_pos rfl, Option.map_some, Segment.unread_taken, Segment.unread_reuse hunread]
      have hl : (NvramTransaction.installPending pending u.nvram.segmentMap).lookup q.segment.id =
          some q.segment.reuse :=
        NvramTransaction.lookup_installPending_mem (hids ▸ h.pendingIds)
      rw [hl, Option.map_some]
    · rw [if_neg e, ← h.map, NvramTransaction.lookup_installPending (hids ▸ h.pendingIds),
        NvramTransaction.lookup_installPending h.pendingIds, hp, hpend, List.find?_append,
        List.find?_append, List.find?_cons_of_neg (by simp [Segment.reuse, Ne.symm e]),
        List.find?_cons_of_neg (by simp [Ne.symm e])]
  exact {
    ids := congrArg (· ++ [q.segment.id]) h.ids
    active := h.active
    next := h.next.trans ht.next.symm
    nextLe := ht.next ▸ h.nextLe
    capsules := ht.capsules.trans h.capsules
    capsules' := h.capsules'
    contentStore := h.contentStore
    stats := congrArg₂ (· + ·) h.stats hlen
    content := fun k => (hcontent k).trans (h.content k)
    registered := fun k => (h.registered k).trans (hcontent k).symm
    offset := h.offset.trans ht.offset.symm
    file := by
      rw [ht.file, ← h.file, hp]
      exact NvramTransaction.writePending_modify rfl
    map := hmap
    pendingIds := hids ▸ h.pendingIds
    pendingNew := fun p hp' => by
      obtain ⟨p', h₁, h₂⟩ := (hmem p.segment.id).mp ⟨p, hp', rfl⟩
      rw [← h₂, ht.next]
      exact h.pendingNew p' h₁
    staged := fun k x hk => (hmem x).mpr (h.staged k x hk)
    stored := h.stored
    key := ht.key.trans h.key
    key' := h.key' }

/-- **A stored segment is reused**, on both sides. -/
theorem took (h : Agrees s₀ st s a u) {x : SegmentId} {t t' : Segment}
    (hx : ∀ q ∈ a.transaction.pending, q.segment.id ≠ x) (ht : s.Took s' x t)
    (hu : u.Took u' x t') :
    Agrees s₀ (st.push x t.len true) s'
      (a.committed ⟨x, .reusedPersistent, t'.len, none⟩ a.transaction a.stagedContent) u' := by
  have hcontent : ∀ k, s'.content k = s.content k := fun k =>
    congrArg (fun m : Table ContentHash SegmentId => m.lookup k) ht.contentStore
  have hunread : t'.unread = t.unread := by
    have ht' := h.stored_seg hx
    rwa [ht.old, hu.old, Option.map_some, Option.map_some, Option.some.injEq] at ht'
  have hlen : t'.unread.len = t.unread.len := congrArg Segment.len hunread
  have hmap : ∀ y, ((NvramTransaction.installPending a.transaction.pending
      u'.nvram.segmentMap).lookup y).map Segment.unread = (s'.seg y).map Segment.unread := by
    intro y
    by_cases e : y = x
    · subst e
      rw [NvramTransaction.lookup_installPending_of_not_mem hx, ht.seg, if_pos rfl,
        show u'.nvram.segmentMap.lookup y = _ from hu.seg y, if_pos rfl, Option.map_some,
        Option.map_some, Segment.unread_taken, Segment.unread_taken, Segment.unread_reuse hunread]
    · rw [ht.seg, if_neg e, ← h.map, NvramTransaction.lookup_installPending h.pendingIds,
        NvramTransaction.lookup_installPending h.pendingIds,
        show u'.nvram.segmentMap.lookup y = _ from hu.seg y, if_neg e]
      rfl
  exact {
    ids := congrArg (· ++ [x]) h.ids
    active := h.active
    next := hu.next.trans (h.next.trans ht.next.symm)
    nextLe := ht.next ▸ h.nextLe
    capsules := ht.capsules.trans h.capsules
    capsules' := hu.capsules.trans h.capsules'
    contentStore := hu.contentStore.trans h.contentStore
    stats := congrArg₂ (· + ·) h.stats hlen
    content := fun k => (hcontent k).trans (h.content k)
    registered := fun k => (h.registered k).trans (hcontent k).symm
    offset := h.offset.trans ht.offset.symm
    file := by
      rw [ht.file, ← h.file, ← hu.file]
      rfl
    map := hmap
    pendingIds := h.pendingIds
    pendingNew := fun p hp => ht.next ▸ h.pendingNew p hp
    staged := h.staged
    stored := fun y => by
      rw [← h.stored y, hu.seg]
      split
      · next e => simp [e, hu.old]
      · rfl
    key := ht.key.trans h.key
    key' := hu.key.trans h.key' }

/-- **A chunk is stored** on the one side, and staged on the other. -/
theorem stage (h : Agrees s₀ st s a u) {p : SegmentPrepared} (hs : s.Stored policy p s')
    (hu : u.Drew u') :
    Agrees s₀ (st.push ⟨s.registry.nextSegmentId⟩ p.finalData.length false) s'
      (a.committed ⟨⟨u.registry.nextSegmentId⟩, .newSegment, p.finalData.length,
          if policy.dedupe then some p.contentHash else none⟩
        (staging policy p ⟨u.registry.nextSegmentId⟩ a.transaction)
        (stagedHash policy p ⟨u.registry.nextSegmentId⟩ a.stagedContent)) u' := by
  rw [h.next]
  set x : SegmentId := ⟨s.registry.nextSegmentId⟩ with hx
  set q : PendingSegment :=
    ⟨p.segment policy x a.transaction.currentOffset, p.finalData⟩ with hq
  have hqid : q.segment.id = x := describe_id
  have hqoff : q.segment.offset = s.nvram.nextOffset := describe_offset.trans h.offset
  have hnot : ∀ r ∈ a.transaction.pending, r.segment.id ≠ x := by
    intro r hr e
    have hlt := (h.pendingNew r hr).2
    rw [e] at hlt
    exact Nat.lt_irrefl _ hlt
  have hnodup : ((a.transaction.pending ++ [q]).map fun r => r.segment.id).Nodup := by
    rw [List.map_append, List.nodup_append]
    refine ⟨h.pendingIds, List.nodup_singleton _, ?_⟩
    intro y hy z hz
    obtain ⟨r, hr, rfl⟩ := List.mem_map.mp hy
    obtain rfl : z = q.segment.id := by simpa using hz
    rw [hqid]
    exact hnot r hr
  have hmap : ∀ y, ((NvramTransaction.installPending (a.transaction.pending ++ [q])
      u'.nvram.segmentMap).lookup y).map Segment.unread = (s'.seg y).map Segment.unread := by
    intro y
    rw [NvramTransaction.installPending_snoc, hu.map, Table.lookup_insert, hqid, hs.seg]
    by_cases e : y = x
    · rw [if_pos e, if_pos e, hq, h.offset]
    · rw [if_neg e, if_neg e]
      exact h.map y
  -- the hashes, with and without deduplication
  have hcontent : ∀ k, s'.content k =
      ((stagedHash policy p x a.stagedContent).lookup k).or (s₀.content k) := by
    intro k
    rw [hs.content, h.content]
    unfold stagedHash
    by_cases hd : policy.dedupe = true
    · rw [if_pos hd, Table.lookup_insert]
      by_cases e : k = p.contentHash
      · rw [if_pos ⟨hd, e⟩, if_pos e, Option.some_or]
      · rw [if_neg fun c => e c.2, if_neg e]
    · rw [if_neg fun c => hd c.1, if_neg hd]
  have hregistered : ∀ k, (registerIn (if policy.dedupe then
      a.pendingRegistrations ++ [(p.contentHash, x)] else a.pendingRegistrations)
      s₀.registry.contentStore).lookup k = s'.content k := by
    intro k
    rw [hs.content]
    by_cases hd : policy.dedupe = true
    · simp only [hd, if_true, registerIn_snoc, Table.lookup_insert, true_and, h.registered]
      rfl
    · simp only [hd, false_and, if_false, Bool.false_eq_true]
      exact h.registered k
  have hcommitted : (a.committed ⟨x, .newSegment, p.finalData.length,
      if policy.dedupe then some p.contentHash else none⟩
      (staging policy p x a.transaction)
      (stagedHash policy p x a.stagedContent)).pendingRegistrations =
      if policy.dedupe then a.pendingRegistrations ++ [(p.contentHash, x)]
        else a.pendingRegistrations := by
    unfold AsyncState.committed
    by_cases hd : policy.dedupe = true <;> simp [hd]
  exact {
    ids := congrArg (· ++ [x]) h.ids
    active := h.active
    next := by rw [hu.next, hs.next, h.next]
    nextLe := hs.next ▸ h.nextLe.trans (Nat.le_succ _)
    capsules := hs.capsules.trans h.capsules
    capsules' := hu.capsules.trans h.capsules'
    contentStore := hu.contentStore.trans h.contentStore
    stats := h.stats
    content := hcontent
    registered := fun k => by rw [hcommitted]; exact hregistered k
    offset := by
      rw [hs.offset, ← h.offset]
      rfl
    file := by
      rw [hs.file, ← h.file, ← hu.file, ← hqoff]
      exact NvramTransaction.writePending_snoc
    map := hmap
    pendingIds := hnodup
    pendingNew := fun r hr => by
      rw [hs.next]
      rcases List.mem_append.mp hr with hr | hr
      · exact ⟨(h.pendingNew r hr).1, Nat.lt_succ_of_lt (h.pendingNew r hr).2⟩
      · obtain rfl : r = q := List.mem_singleton.mp hr
        rw [hqid]
        exact ⟨h.nextLe, Nat.lt_succ_self _⟩
    staged := fun k y hk => by
      have hk' : (stagedHash policy p x a.stagedContent).lookup k = some y := hk
      have old : a.stagedContent.lookup k = some y →
          ∃ r ∈ a.transaction.pending ++ [q], r.segment.id = y := fun hold => by
        obtain ⟨r, hr, he⟩ := h.staged k y hold
        exact ⟨r, List.mem_append_left _ hr, he⟩
      unfold stagedHash at hk'
      split at hk'
      · rcases Table.lookup_insert_eq_some.mp hk' with ⟨-, rfl⟩ | ⟨-, hk'⟩
        · exact ⟨q, List.mem_append_right _ (List.mem_singleton.mpr rfl), hqid⟩
        · exact old hk'
      · exact old hk'
    stored := fun y => by
      rw [← h.stored y]
      unfold Store.seg
      rw [hu.map]
    key := hs.key.trans h.key
    key' := hu.key.trans h.key' }

/-- **One chunk.**  If the coordinator commits it, the synchronous write stores it and the two stay
together; else its hash names a segment that is not there. -/
theorem step (hn : s₀.NamesDrawn) (h : Agrees s₀ st s a u) {chunk : Bytes × Nat}
    {p : SegmentPrepared} (hp : sealedChunk P (s₀.keyFor policy) policy chunk = some p) :
    (commitSegment policy p a.transaction a.stagedContent).wp (Direct P) (fun _ _ => True)
      (fun r u' => match r with
        | .ok (o, t, staged) => ∃ st' s', (writeChunk P policy st chunk).run StoreOp.exec s =
            (.ok st', s') ∧ Agrees s₀ st' s' (a.committed o t staged) u'
        | .error _ => u' = u ∧ ∃ x, s₀.content p.contentHash = some x ∧ s₀.seg x = none) u := by
  have hkey : s.keyFor policy = s₀.keyFor policy := by
    unfold Store.keyFor
    rw [h.key]
  have hcontent : u.content p.contentHash = s₀.content p.contentHash :=
    congrArg (fun m : Table ContentHash SegmentId => m.lookup p.contentHash) h.contentStore
  have hnew : ∀ q ∈ a.transaction.pending, q.segment.id ≠ ⟨u.registry.nextSegmentId⟩ := by
    intro q hq e
    have hlt := (h.pendingNew q hq).2
    rw [e, h.next] at hlt
    exact Nat.lt_irrefl _ hlt
  -- the synchronous write stores the chunk if what its hash names is there
  have hstores : (∀ x, policy.dedupe = true → s.content p.contentHash = some x → s.seg x ≠ none) →
      ∃ st' s', (writeChunk P policy st chunk).run StoreOp.exec s = (.ok st', s') ∧
        ((∃ x t, policy.dedupe = true ∧ s.content p.contentHash = some x ∧ s.Took s' x t ∧
            st' = st.push x t.len true) ∨
          ((policy.dedupe = true → s.content p.contentHash = none) ∧ s.Stored policy p s' ∧
            st' = st.push ⟨s.registry.nextSegmentId⟩ p.finalData.length false)) := by
    intro hlive
    have hgo : ¬ Refused s policy chunk := fun hr => by
      obtain ⟨hd, x, hx, hnone⟩ := hr p (hkey ▸ hp)
      exact hlive x hd hx hnone
    obtain ⟨st', s', hrun⟩ := writeChunk_ok st hgo
    obtain ⟨p', hp', hcases⟩ := writeChunk_cases hrun
    rw [hkey, hp, Option.some.injEq] at hp'
    subst hp'
    exact ⟨st', s', hrun, hcases⟩
  refine wp_commitSegment_store h.active hnew ?_ ?_ ?_ ?_
  · rintro e (⟨x, hx, hnone⟩ | ⟨-, x, hx, hnone⟩)
    · -- what is staged is pending
      obtain ⟨q, hq, rfl⟩ := h.staged _ _ hx
      have hfind := Option.map_eq_none_iff.mp hnone
      exact absurd (List.find?_eq_none.mp hfind q hq) (by simp)
    · exact ⟨rfl, x, hcontent ▸ hx, (h.stored x).mp hnone⟩
  · -- a staged segment, which the synchronous write finds registered
    intro l q r hd hl hpend
    have hc : s.content p.contentHash = some q.segment.id := by rw [h.content, hl, Option.some_or]
    have hseg : s.seg q.segment.id ≠ none := by
      intro k
      have hq := h.pending_seg hpend
      rw [k] at hq
      cases hq
    obtain ⟨st', s', hrun, hcases⟩ := hstores fun x _ hx => by
      rw [hc] at hx
      cases hx
      exact hseg
    refine ⟨st', s', hrun, ?_⟩
    rcases hcases with ⟨x, t, -, hx, ht, rfl⟩ | ⟨hnone, -⟩
    · obtain rfl : x = q.segment.id := by
        rw [hc] at hx
        exact (Option.some.inj hx).symm
      exact h.reuse hpend ht
    · rw [hnone hd] at hc
      cases hc
  · -- a stored one
    intro x t u' hd hl hx hu
    have hx₀ : s₀.content p.contentHash = some x := hcontent ▸ hx
    have hc : s.content p.contentHash = some x := by rw [h.content, hl, Option.none_or, hx₀]
    -- its identifier was drawn before
    have hnot : ∀ q ∈ a.transaction.pending, q.segment.id ≠ x := by
      rintro q hq rfl
      have hseg : s₀.seg q.segment.id ≠ none := by
        rw [Ne, ← h.stored, hu.old]
        exact nofun
      obtain ⟨t₀, ht₀⟩ := Option.ne_none_iff_exists'.mp hseg
      exact absurd (hn _ _ _ hx₀ ht₀) (Nat.not_lt.mpr (h.pendingNew q hq).1)
    have hseg : s.seg x ≠ none := by
      intro k
      have hs := h.stored_seg hnot
      rw [hu.old, k] at hs
      cases hs
    obtain ⟨st', s', hrun, hcases⟩ := hstores fun y _ hy => by
      rw [hc] at hy
      cases hy
      exact hseg
    refine ⟨st', s', hrun, ?_⟩
    rcases hcases with ⟨x', t', -, hx', ht, rfl⟩ | ⟨hnone, -⟩
    · obtain rfl : x' = x := by
        rw [hc] at hx'
        exact (Option.some.inj hx').symm
      exact h.took hnot ht hu
    · rw [hnone hd] at hc
      cases hc
  · -- a new one
    intro u' hnone hu
    have hc : policy.dedupe = true → s.content p.contentHash = none := fun hd => by
      rw [h.content, (hnone hd).1, Option.none_or, ← hcontent, (hnone hd).2]
    obtain ⟨st', s', hrun, hcases⟩ := hstores fun x hd hx => by
      rw [hc hd] at hx
      cases hx
    refine ⟨st', s', hrun, ?_⟩
    rcases hcases with ⟨x', t', hd, hx', -, -⟩ | ⟨-, hs, rfl⟩
    · rw [hc hd] at hx'
      cases hx'
    · exact h.stage hs hu

end Agrees

/-! ### The coordinator follows the synchronous write -/

section
variable {data : Bytes} {st : WriteState}

/-- The synchronous write from `s₀` is in `st` over `s` after `i` chunks. -/
def After (P : Primitives) (policy : Policy) (data : Bytes) (s₀ : Store P) (i : Nat)
    (st : WriteState) (s : Store P) : Prop :=
  (((chunks SEGMENT_SIZE data).zipIdx.take i).foldlM (writeChunk P policy) {}).run StoreOp.exec s₀ =
    (.ok st, s)

/-- One more chunk. -/
theorem After.snoc {i : Nat} {chunk : Bytes × Nat} {st' : WriteState}
    (h : After P policy data s₀ i st s) (hc : (chunks SEGMENT_SIZE data).zipIdx[i]? = some chunk)
    (hrun : (writeChunk P policy st chunk).run StoreOp.exec s = (.ok st', s')) :
    After P policy data s₀ (i + 1) st' s' := by
  have h' : (((chunks SEGMENT_SIZE data).zipIdx.take i).foldlM (writeChunk P policy) {}).run
    StoreOp.exec s₀ = (.ok st, s) := h
  unfold After
  rw [List.take_add_one, hc, List.foldlM_append, run_bind, h']
  show ([chunk].foldlM (writeChunk P policy) st).run StoreOp.exec s = _
  rw [List.foldlM_cons, run_bind, hrun]
  rfl

/-- The coordinator, in `a` over `u`, has not failed and agrees with the synchronous write after
as many chunks; and what has arrived are the chunks.  What it fails on is a hash that names a
segment that is not there, and a task fails where its chunk cannot be prepared. -/
structure Follows (P : Primitives) (policy : Policy) (data : Bytes) (s₀ : Store P)
    (a : AsyncState) (u : Store P) : Prop where
  agrees : a.commitError = none →
    ∃ st s, After P policy data s₀ a.nextIndex st s ∧ Agrees s₀ st s a u
  ordered : ∀ i p, a.ordered.lookup i = some p → ∃ chunk,
    (chunks SEGMENT_SIZE data).zipIdx[i]? = some chunk ∧
      sealedChunk P (s₀.keyFor policy) policy chunk = some p
  stopped : a.commitError ≠ none → ∃ h x, s₀.content h = some x ∧ s₀.seg x = none
  failed : ∀ i e, a.taskErrors.lookup i = some e → ∃ chunk,
    (chunks SEGMENT_SIZE data).zipIdx[i]? = some chunk ∧
      sealedChunk P (s₀.keyFor policy) policy chunk = none
  key : u.currentKey.1 = s₀.currentKey.1
  index : a.nextIndex ≤ (chunks SEGMENT_SIZE data).zipIdx.length

theorem Agrees.rekeyed {a : AsyncState} {u u' : Store P} (h : Agrees s₀ st s a u)
    (hr : u.Rekeyed u') : Agrees s₀ st s a u' := by
  obtain ⟨hreg, hnv, hk⟩ := hr
  exact { h with
    next := by rw [hreg]; exact h.next
    capsules' := by rw [hreg]; exact h.capsules'
    contentStore := by rw [hreg]; exact h.contentStore
    file := by rw [hnv]; exact h.file
    map := by rw [hnv]; exact h.map
    stored := fun x => by rw [← h.stored x]; unfold Store.seg; rw [hnv]
    key' := hk.trans h.key' }

/-- The coordinator stops only where it waits for a chunk that has not arrived, or has failed, or
is out of fuel. -/
theorem wp_drain_store (hn : s₀.NamesDrawn) :
    ∀ (n : Nat) (a : AsyncState) (u : Store P), Follows P policy data s₀ a u →
      a.commitError = none → (drain policy n a).wp (Direct P) (fun _ _ => True)
        (fun r u' => ∃ a', r = .ok a' ∧ Follows P policy data s₀ a' u' ∧
          a'.ordered = a.ordered ∧ a'.taskErrors = a.taskErrors ∧ (a'.commitError = none →
            a'.ordered.lookup a'.nextIndex = none ∨ a.nextIndex + n ≤ a'.nextIndex)) u
  | 0, a, u, h, _ => ⟨a, rfl, h, rfl, rfl, fun _ => .inr (Nat.le_refl _)⟩
  | n + 1, a, u, h, he => by
      unfold drain
      cases hp : a.ordered.lookup a.nextIndex with
      | none => exact ⟨a, rfl, h, rfl, rfl, fun _ => .inl hp⟩
      | some p =>
          obtain ⟨chunk, hc, hsealed⟩ := h.ordered _ p hp
          obtain ⟨st, s, hafter, hagrees⟩ := h.agrees he
          refine wp_bind.mpr (wp_attempt.mpr (wp_mono (hagrees.step hn hsealed) fun r u' hr => ?_))
          cases r with
          | error e =>
              obtain ⟨rfl, x, hx, hseg⟩ := hr
              exact ⟨_, rfl, { h with agrees := nofun, stopped := fun _ => ⟨_, x, hx, hseg⟩ },
                rfl, rfl, nofun⟩
          | ok o =>
              obtain ⟨o, t, staged⟩ := o
              obtain ⟨st', s', hrun, hag⟩ := hr
              have hlt := (List.getElem?_eq_some_iff.mp hc).1
              refine wp_mono (wp_drain_store hn n (a.committed o t staged) u' { h with
                agrees := fun _ => ⟨st', s', hafter.snoc hc hrun, hag⟩
                key := hag.key'
                index := hlt } he) fun r u'' hr => ?_
              obtain ⟨a', rfl, hf, ho, ht, hstop⟩ := hr
              refine ⟨a', rfl, hf, ho, ht, fun k => (hstop k).imp_right fun hle => ?_⟩
              rwa [show (a.committed o t staged).nextIndex = a.nextIndex + 1 from rfl,
                Nat.add_right_comm, Nat.add_assoc] at hle

theorem Follows.rekeyed {a : AsyncState} {u u' : Store P} (h : Follows P policy data s₀ a u)
    (hr : u.Rekeyed u') : Follows P policy data s₀ a u' := by
  refine { h with agrees := fun he => ?_, key := hr.key.trans h.key }
  obtain ⟨st, s, hafter, hagrees⟩ := h.agrees he
  exact ⟨st, s, hafter, hagrees.rekeyed hr⟩

/-- The chunks that are not in `rest` have arrived, or their tasks have failed; and the coordinator
waits for a chunk that has not arrived. -/
structure Handled (data : Bytes) (rest : List (Bytes × Nat)) (a : AsyncState) : Prop where
  seen : ∀ i chunk, (chunks SEGMENT_SIZE data).zipIdx[i]? = some chunk →
    chunk ∈ rest ∨ a.ordered.lookup i ≠ none ∨ a.taskErrors.lookup i ≠ none
  waits : a.ordered.lookup a.nextIndex = none ∨
    (chunks SEGMENT_SIZE data).zipIdx.length ≤ a.nextIndex

/-- The index of a chunk. -/
theorem index_of_zipIdx {l : List Bytes} {i : Nat} {chunk : Bytes × Nat}
    (h : l.zipIdx[i]? = some chunk) : chunk.2 = i := by
  rw [List.getElem?_zipIdx] at h
  obtain ⟨b, -, rfl⟩ := Option.map_eq_some_iff.mp h
  exact Nat.zero_add i

/-- **A task completes.** -/
theorem wp_arrive_store (hn : s₀.NamesDrawn) {a : AsyncState} {u : Store P} {chunk : Bytes × Nat}
    {rest : List (Bytes × Nat)} (hc : (chunks SEGMENT_SIZE data).zipIdx[chunk.2]? = some chunk)
    (h : Follows P policy data s₀ a u)
    (hh : a.commitError = none → Handled data (chunk :: rest) a) :
    (arrive P policy (chunks SEGMENT_SIZE data).zipIdx.length a chunk).wp (Direct P)
      (fun _ _ => True) (fun r u' => ∃ a', r = .ok a' ∧ Follows P policy data s₀ a' u' ∧
        (a'.commitError = none → Handled data rest a')) u := by
  have hkey : u.keyFor policy = s₀.keyFor policy := by
    unfold Store.keyFor
    rw [h.key]
  unfold arrive
  refine wp_bind.mpr (wp_attempt.mpr (wp_prepareSegment_store (fun e u' hp hr => ?_)
    fun p u' hp hr => ?_))
  · -- the task fails
    have hr' := h.rekeyed hr
    refine ⟨_, rfl, { hr' with agrees := fun he => ?_, failed := fun i e' hi => ?_ },
      fun he => ⟨fun i c hi => ?_, (hh he).waits⟩⟩
    · obtain ⟨st, s, hafter, hagrees⟩ := hr'.agrees he
      exact ⟨st, s, hafter, { hagrees with }⟩
    · rcases Table.lookup_insert_eq_some.mp hi with ⟨rfl, -⟩ | ⟨-, hi⟩
      · exact ⟨chunk, hc, hkey ▸ hp⟩
      · exact h.failed i e' hi
    · rcases (hh he).seen i c hi with hm | ho | ht
      · rcases List.mem_cons.mp hm with rfl | hm
        · refine .inr (.inr ?_)
          rw [Table.lookup_insert, if_pos (index_of_zipIdx hi).symm]
          exact nofun
        · exact .inl hm
      · exact .inr (.inl ho)
      · refine .inr (.inr ?_)
        rw [Table.lookup_insert]
        split
        · exact nofun
        · exact ht
  · show Prog.wp (Direct P) _ _ (if a.commitError.isSome = true then _ else _) u'
    split
    · next he =>
        refine ⟨a, rfl, h.rekeyed hr, fun k => ?_⟩
        rw [k] at he
        cases he
    · next he =>
        have he' : a.commitError = none := by simpa using he
        have hr' := h.rekeyed hr
        obtain ⟨st, s, hafter, hagrees⟩ := hr'.agrees he'
        have hordered : ∀ i q, (a.ordered.insert chunk.2 p).lookup i = some q → ∃ c,
            (chunks SEGMENT_SIZE data).zipIdx[i]? = some c ∧
              sealedChunk P (s₀.keyFor policy) policy c = some q := by
          intro i q hq
          rcases Table.lookup_insert_eq_some.mp hq with ⟨rfl, rfl⟩ | ⟨-, hq⟩
          · exact ⟨chunk, hc, hkey ▸ hp⟩
          · exact h.ordered i q hq
        refine wp_mono (wp_drain_store hn _ { a with ordered := a.ordered.insert chunk.2 p } u'
          { hr' with
            agrees := fun _ => ⟨st, s, hafter, { hagrees with }⟩
            ordered := hordered } he') fun r u'' hd => ?_
        obtain ⟨a', rfl, hf, ho, ht, hstop⟩ := hd
        refine ⟨a', rfl, hf, fun k => ⟨fun i c hi => ?_, (hstop k).imp_right fun hle => ?_⟩⟩
        · rw [ho, ht]
          rcases (hh he').seen i c hi with hm | hs | hs
          · rcases List.mem_cons.mp hm with rfl | hm
            · refine .inr (.inl ?_)
              rw [Table.lookup_insert, if_pos (index_of_zipIdx hi).symm]
              exact nofun
            · exact .inl hm
          · refine .inr (.inl ?_)
            rw [Table.lookup_insert]
            split
            · exact nofun
            · exact hs
          · exact .inr (.inr hs)
        · exact (Nat.le_add_left _ _).trans hle

end

/-! ### The end of the two writes -/

/-- Only the registry has changed, and its capsules by one. -/
structure Created (s s' : Store P) (id : CapsuleId) (c : Capsule) : Prop where
  nvram : s'.nvram = s.nvram
  saved : s'.registry.saved = some s'.registry.toRegistryState
  contentStore : s'.registry.contentStore = s.registry.contentStore
  cap : ∀ id', s'.registry.capsules.lookup id' =
    if id' = id then some c else s.registry.capsules.lookup id'

variable {id : CapsuleId} {size : Nat} {l : List SegmentId}

theorem wp_createCapsule_store {Q : Except Error Unit → Store P → Prop}
    (herr : s.registry.capsules.lookup id ≠ none → ∀ e, Q (.error e) s)
    (hok : ∀ s', s.registry.capsules.lookup id = none → Created s s' id ⟨id, size, l, policy, 0⟩ →
      s'.registry.nextSegmentId = s.registry.nextSegmentId → Q (.ok ()) s') :
    (Native.createCapsuleWithSegments id size l policy).wp (Direct P) (fun _ _ => True) Q s := by
  refine wp_storeOp (.createCapsuleWithSegments id size l policy) ?_
  cases hl : s.registry.capsules.lookup id with
  | some c =>
      simp only [StoreOp.exec, CapsuleRegistry.createCapsuleWithSegments, hl]
      refine herr ?_ _
      rw [hl]
      exact Option.some_ne_none c
  | none =>
      simp only [StoreOp.exec, CapsuleRegistry.createCapsuleWithSegments, hl]
      exact hok _ hl ⟨rfl, rfl, rfl, fun id' => Table.lookup_insert _ _ _ _⟩ rfl

/-- Registering the staged hashes always succeeds. -/
theorem wp_registerAll_store {all : List (ContentHash × SegmentId)} {increments : List SegmentId} :
    ∀ (l done : List (ContentHash × SegmentId)) (s : Store P)
      {Q : Except Error Unit → Store P → Prop},
      (∀ s', s'.nvram = s.nvram → s'.registry.capsules = s.registry.capsules →
        s'.registry.contentStore = registerIn l s.registry.contentStore →
        s'.registry.nextSegmentId = s.registry.nextSegmentId → Q (.ok ()) s') →
      (registerAll all increments l done).wp (Direct P) (fun _ _ => True) Q s
  | [], _, s, _, hQ => hQ s rfl rfl rfl rfl
  | (hash, x) :: l, done, s, Q, hQ => by
      unfold registerAll
      refine wp_bind.mpr (wp_attempt.mpr (wp_storeOp (.registerContent hash x) ?_))
      exact wp_registerAll_store l _ _ fun s' h₁ h₂ h₃ h₄ => hQ s' h₁ h₂ h₃ h₄

/-- What a write that began in `s₀` leaves, if it has made `sₙ` of the segments and hashes. -/
structure Ends (s₀ sₙ : Store P) (size : Nat) (l : List SegmentId) (policy : Policy)
    (id : CapsuleId) (s : Store P) : Prop where
  cap : ∃ bytes, s.registry.capsules.lookup id = some ⟨id, size, l, policy, bytes⟩
  others : ∀ id', id' ≠ id → s.registry.capsules.lookup id' = s₀.registry.capsules.lookup id'
  content : ∀ h, s.content h = sₙ.content h
  segments : ∀ x, (s.seg x).map Segment.unread = (sₙ.seg x).map Segment.unread
  file : s.nvram.file = sₙ.nvram.file

theorem Ends.of_created {sₙ : Store P} {c : Capsule} (h : Created s s' id c) {bytes : Nat}
    (hc : c = ⟨id, size, l, policy, bytes⟩)
    (hcap : s.registry.capsules = s₀.registry.capsules) (hcont : ∀ k, s.content k = sₙ.content k)
    (hseg : ∀ x, (s.seg x).map Segment.unread = (sₙ.seg x).map Segment.unread)
    (hfile : s.nvram.file = sₙ.nvram.file) : Ends s₀ sₙ size l policy id s' where
  cap := ⟨bytes, by rw [h.cap, if_pos rfl, hc]⟩
  others := fun id' hne => by rw [h.cap, if_neg hne, hcap]
  content := fun k => by
    rw [← hcont]
    unfold Store.content
    rw [h.contentStore]
  segments := fun x => by
    rw [← hseg]
    unfold Store.seg
    rw [h.nvram]
  file := by rw [h.nvram, hfile]

/-- The dedup counter of a capsule, in memory and on file. -/
structure Counts (s : Store P) (id : CapsuleId) (inMemory onFile : Nat) : Prop where
  memory : (s.registry.capsules.lookup id).map Capsule.dedupedBytes = some inMemory
  file : (s.registry.saved.bind fun state => state.capsules.lookup id).map
    Capsule.dedupedBytes = some onFile

/-- Creation resets it. -/
theorem Created.counts {c : Capsule} (h : Created s s' id c) :
    Counts s' id c.dedupedBytes c.dedupedBytes where
  memory := by rw [h.cap, if_pos rfl, Option.map_some]
  file := by
    rw [h.saved, Option.bind_some, h.cap, if_pos rfl, Option.map_some]

/-- Raising it is not saved. -/
theorem Counts.addDedupedBytes {m f : Nat} (h : Counts s id m f) (bytes : Nat) :
    Counts (StoreOp.exec (.addDedupedBytes id bytes) s).2 id (m + bytes) f := by
  obtain ⟨c, hc, rfl⟩ := Option.map_eq_some_iff.mp h.memory
  refine ⟨?_, ?_⟩
  · simp only [StoreOp.exec, Store.onRegistry, CapsuleRegistry.addDedupedBytes, hc]
    rw [Table.lookup_insert, if_pos rfl, Option.map_some]
  · simp only [StoreOp.exec, Store.onRegistry, CapsuleRegistry.addDedupedBytes, hc]
    exact h.file

/-- The dedup counter does not count. -/
theorem Ends.addDedupedBytes {sₙ : Store P} (h : Ends s₀ sₙ size l policy id s) (bytes : Nat) :
    Ends s₀ sₙ size l policy id (StoreOp.exec (.addDedupedBytes id bytes) s).2 := by
  obtain ⟨b, hb⟩ := h.cap
  simp only [StoreOp.exec, Store.onRegistry, CapsuleRegistry.addDedupedBytes, hb]
  exact {
    cap := ⟨b + bytes, by rw [Table.lookup_insert, if_pos rfl]⟩
    others := fun id' hne => by rw [Table.lookup_insert, if_neg hne, h.others id' hne]
    content := h.content
    segments := h.segments
    file := h.file }

variable {data : Bytes}

/-- Storing chunks makes no capsules. -/
theorem capsules_of_chunks {chunked : List (Bytes × Nat)} {st stₙ : WriteState} {sₙ : Store P}
    (h : (chunked.foldlM (writeChunk P policy) st).run StoreOp.exec s₀ = (.ok stₙ, sₙ)) :
    sₙ.registry.capsules = s₀.registry.capsules := by
  have hw : (chunked.foldlM (writeChunk P policy) st).wp (Direct P) (fun _ _ => True)
      (fun r s => ∀ st', r = .ok st' → s.registry.capsules = s₀.registry.capsules) s₀ := by
    refine wp_foldlM (fun _ _ s => s.registry.capsules = s₀.registry.capsules) ?_
      (fun _ _ h _ _ => h) _ _ _ rfl
    intro chunk rest st s hs
    refine wp_writeChunk_store (fun e s' _ _ => nofun) ?_ ?_
    · exact fun _ _ _ s' _ _ _ ht => ht.capsules.trans hs
    · exact fun _ s' _ _ ht => ht.capsules.trans hs
  have hrun := wp_run hw
  rw [h] at hrun
  exact hrun stₙ rfl

/-- **The synchronous write**, once its chunks are stored. -/
theorem wp_writeCapsule_store {Q : Except Error CapsuleId → Store P → Prop}
    (herr : ¬ (s₀.registry.capsules.lookup id = none ∧ ∃ stₙ sₙ,
        ((chunks SEGMENT_SIZE data).zipIdx.foldlM (writeChunk P policy) {}).run StoreOp.exec s₀ =
          (.ok stₙ, sₙ)) → ∀ e s', Q (.error e) s')
    (hok : ∀ stₙ sₙ s', ((chunks SEGMENT_SIZE data).zipIdx.foldlM (writeChunk P policy) {}).run
        StoreOp.exec s₀ = (.ok stₙ, sₙ) →
      Ends s₀ sₙ data.length stₙ.segmentIds policy id s' → Counts s' id 0 0 →
      s'.registry.nextSegmentId = sₙ.registry.nextSegmentId → Q (.ok id) s') :
    (writeCapsuleWithPolicy P id data policy).wp (Direct P) (fun _ _ => True) Q s₀ := by
  unfold writeCapsuleWithPolicy
  refine wp_bind.mpr (wp_of_run ?_)
  generalize hr : ((chunks SEGMENT_SIZE data).zipIdx.foldlM (writeChunk P policy) {}).run
    StoreOp.exec s₀ = run
  obtain ⟨r, sₙ⟩ := run
  cases r with
  | error e =>
      refine herr (fun k => ?_) _ _
      obtain ⟨-, stₙ, sₙ', h⟩ := k
      rw [hr] at h
      cases h
  | ok stₙ =>
      have hcap := capsules_of_chunks hr
      -- the counter is raised before there is a capsule
      have hcreate : ∀ s₂ : Store P, s₂.nvram = sₙ.nvram →
          s₂.registry.contentStore = sₙ.registry.contentStore →
          s₂.registry.nextSegmentId = sₙ.registry.nextSegmentId →
          (s₂.registry.capsules.lookup id = none → s₂.registry.capsules = sₙ.registry.capsules) →
          (s₂.registry.capsules.lookup id ≠ none → s₀.registry.capsules.lookup id ≠ none) →
          Prog.wp (Direct P) (fun _ _ => True) Q (do
            (Native.createCapsuleWithSegments id data.length stₙ.segmentIds policy).mapError
              (mapRegistryError "create_capsule_with_segments")
            return id) s₂ := by
        intro s₂ hnv hcs hnext hnone hsome
        refine wp_bind.mpr (wp_mapError.mpr (wp_createCapsule_store
          (fun hl e => herr (fun k => hsome hl k.1) _ _) fun s' hl hc hn => ?_))
        refine hok stₙ sₙ s' hr (.of_created hc rfl ((hnone hl).trans hcap) (fun k => ?_)
          (fun x => ?_) (by rw [hnv])) hc.counts (hn.trans hnext)
        · unfold Store.content
          rw [hcs]
        · unfold Store.seg
          rw [hnv]
      show Prog.wp (Direct P) (fun _ _ => True) Q (do
        if 0 < stₙ.dedupStats.bytesSaved then _
        _) sₙ
      split
      · refine wp_bind.mpr (wp_mapError.mpr (wp_storeOp (.addDedupedBytes id _) ?_))
        refine hcreate _ rfl ?_ ?_ (fun hl => ?_) fun hl => ?_
        · simp only [StoreOp.exec, Store.onRegistry, CapsuleRegistry.addDedupedBytes]
          split <;> rfl
        · simp only [StoreOp.exec, Store.onRegistry, CapsuleRegistry.addDedupedBytes]
          split <;> rfl
        · simp only [StoreOp.exec, Store.onRegistry, CapsuleRegistry.addDedupedBytes] at hl ⊢
          split
          · rfl
          · next c hc =>
              rw [hc] at hl
              rw [Table.lookup_insert, if_pos rfl] at hl
              cases hl
        · rw [← hcap]
          simp only [StoreOp.exec, Store.onRegistry, CapsuleRegistry.addDedupedBytes] at hl
          split at hl
          · exact hl
          · next c hc =>
              rw [hc]
              exact Option.some_ne_none c
      · exact hcreate sₙ rfl rfl rfl (fun _ => rfl) fun hl => hcap ▸ hl

/-- It succeeds if its chunks can be stored and its capsule is new. -/
theorem writeCapsule_ok {stₙ : WriteState} {sₙ : Store P}
    (hall : ((chunks SEGMENT_SIZE data).zipIdx.foldlM (writeChunk P policy) {}).run StoreOp.exec
      s₀ = (.ok stₙ, sₙ)) (hnew : s₀.registry.capsules.lookup id = none) :
    ∃ s', (writeCapsuleWithPolicy P id data policy).run StoreOp.exec s₀ = (.ok id, s') ∧
      Ends s₀ sₙ data.length stₙ.segmentIds policy id s' := by
  have hw : (writeCapsuleWithPolicy P id data policy).wp (Direct P) (fun _ _ => True)
      (fun r s' => r = .ok id ∧ Ends s₀ sₙ data.length stₙ.segmentIds policy id s') s₀ := by
    refine wp_writeCapsule_store (fun k => absurd ⟨hnew, stₙ, sₙ, hall⟩ k) ?_
    intro st s s' h he _ _
    rw [hall] at h
    cases h
    exact ⟨rfl, he⟩
  have hrun := wp_run hw
  exact ⟨_, Prod.ext hrun.1 rfl, hrun.2⟩

/-! ### When the writes succeed -/

/-- What a write needs: chunks that can be prepared, a content store that names segments that are
there, and an identifier that is new. -/
structure Writable (P : Primitives) (policy : Policy) (data : Bytes) (id : CapsuleId)
    (s : Store P) : Prop where
  new : s.registry.capsules.lookup id = none
  live : ∀ h x, s.content h = some x → s.seg x ≠ none
  prepared : ∀ chunk ∈ (chunks SEGMENT_SIZE data).zipIdx,
    sealedChunk P (s.keyFor policy) policy chunk ≠ none

/-- Storing a chunk keeps the key, and a content store that names segments that are there. -/
theorem writeChunk_live {st st' : WriteState} {chunk : Bytes × Nat}
    (h : (writeChunk P policy st chunk).run StoreOp.exec s = (.ok st', s'))
    (hlive : ∀ h x, s.content h = some x → s.seg x ≠ none) :
    s'.keyFor policy = s.keyFor policy ∧ ∀ h x, s'.content h = some x → s'.seg x ≠ none := by
  obtain ⟨p, -, ⟨x, t, -, -, ht, -⟩ | ⟨-, hs, -⟩⟩ := writeChunk_cases h
  · refine ⟨by unfold Store.keyFor; rw [ht.key], fun k y hy => ?_⟩
    rw [ht.seg]
    split
    · exact nofun
    · refine hlive k y ?_
      rw [← hy]
      exact congrArg (fun m : Table ContentHash SegmentId => m.lookup k) ht.contentStore.symm
  · refine ⟨by unfold Store.keyFor; rw [hs.key], fun k y hy => ?_⟩
    rw [hs.seg]
    split
    · exact nofun
    · next hne =>
        rw [hs.content] at hy
        split at hy
        · cases hy
          exact absurd rfl hne
        · exact hlive k y hy

/-- **The chunks are stored**, if they can be prepared and the content store names segments that
are there. -/
theorem chunks_stored (policy : Policy) :
    ∀ (l : List (Bytes × Nat)) (st : WriteState) (s : Store P),
    (∀ h x, s.content h = some x → s.seg x ≠ none) →
    (∀ chunk ∈ l, sealedChunk P (s.keyFor policy) policy chunk ≠ none) →
    ∃ st' s', (l.foldlM (writeChunk P policy) st).run StoreOp.exec s = (.ok st', s')
  | [], st, s, _, _ => ⟨st, s, rfl⟩
  | chunk :: l, st, s, hlive, hl => by
      have hgo : ¬ Refused s policy chunk := fun hr => by
        obtain ⟨p, hp⟩ := Option.ne_none_iff_exists'.mp (hl chunk List.mem_cons_self)
        obtain ⟨-, x, hx, hnone⟩ := hr p hp
        exact hlive _ x hx hnone
      obtain ⟨st₁, s₁, hrun⟩ := writeChunk_ok st hgo
      obtain ⟨hkey, hlive₁⟩ := writeChunk_live hrun hlive
      obtain ⟨st', s', hrest⟩ := chunks_stored policy l st₁ s₁ hlive₁ fun c hc =>
        hkey ▸ hl c (List.mem_cons_of_mem _ hc)
      refine ⟨st', s', ?_⟩
      rw [List.foldlM_cons, run_bind, hrun]
      exact hrest

/-- Chunks that are stored could be prepared. -/
theorem prepared_of_chunks : ∀ {l : List (Bytes × Nat)} {st st' : WriteState} {s s' : Store P},
    (l.foldlM (writeChunk P policy) st).run StoreOp.exec s = (.ok st', s') →
    ∀ chunk ∈ l, sealedChunk P (s.keyFor policy) policy chunk ≠ none
  | [], _, _, _, _, _, _, hc => absurd hc List.not_mem_nil
  | first :: l, st, st', s, s', h, chunk, hc => by
      rw [List.foldlM_cons, run_bind] at h
      generalize hr : (writeChunk P policy st first).run StoreOp.exec s = r at h
      obtain ⟨r, s₁⟩ := r
      cases r with
      | error e => cases (Prod.mk.inj h).1
      | ok st₁ =>
          obtain ⟨p, hp, hcases⟩ := writeChunk_cases hr
          have hkey : s₁.keyFor policy = s.keyFor policy := by
            unfold Store.keyFor
            rcases hcases with ⟨x, t, -, -, ht, -⟩ | ⟨-, hs, -⟩
            · rw [ht.key]
            · rw [hs.key]
          rcases List.mem_cons.mp hc with rfl | hc
          · rw [hp]
            exact nofun
          · exact hkey ▸ prepared_of_chunks h chunk hc

/-- **The coordinator has not failed** once all chunks have arrived, if the write could be made. -/
theorem Follows.error_eq_none {a : AsyncState} {u : Store P} (h : Follows P policy data s₀ a u)
    (hh : a.commitError = none → Handled data [] a) (hw : Writable P policy data id s₀) :
    AsyncState.error a (chunks SEGMENT_SIZE data).zipIdx.length = none := by
  have hcommit : a.commitError = none := by
    by_contra hne
    obtain ⟨k, x, hx, hnone⟩ := h.stopped hne
    exact hw.live k x hx hnone
  have htask : ∀ i, a.taskErrors.lookup i = none := by
    intro i
    by_contra hne
    obtain ⟨e, he⟩ := Option.ne_none_iff_exists'.mp hne
    obtain ⟨chunk, hc, hnone⟩ := h.failed i e he
    exact hw.prepared chunk (List.mem_of_getElem? hc) hnone
  have hindex : a.nextIndex = (chunks SEGMENT_SIZE data).zipIdx.length := by
    refine Nat.le_antisymm h.index ?_
    rcases (hh hcommit).waits with hnone | hle
    · by_contra hlt
      obtain ⟨chunk, hc⟩ : ∃ chunk, (chunks SEGMENT_SIZE data).zipIdx[a.nextIndex]? = some chunk :=
        ⟨_, List.getElem?_eq_getElem (Nat.not_le.mp hlt)⟩
      rcases (hh hcommit).seen _ chunk hc with hm | ho | ht
      · exact List.not_mem_nil hm
      · exact ho hnone
      · exact ht (htask _)
    · exact hle
  unfold AsyncState.error
  rw [hcommit, List.findSome?_eq_none_iff.mpr fun i _ => htask i, if_neg (not_not.mpr hindex)]
  rfl

/-- **The coordinator ends.** -/
theorem wp_finishAsync_store {u : Store P} {a : AsyncState}
    {Q : Except Error CapsuleId → Store P → Prop} (h : Follows P policy data s₀ a u)
    (hh : a.commitError = none → Handled data [] a)
    (herr : ¬ Writable P policy data id s₀ → ∀ e s', Q (.error e) s')
    (hok : ∀ stₙ sₙ s', ((chunks SEGMENT_SIZE data).zipIdx.foldlM (writeChunk P policy) {}).run
        StoreOp.exec s₀ = (.ok stₙ, sₙ) →
      Ends s₀ sₙ data.length stₙ.segmentIds policy id s' →
      Counts s' id stₙ.dedupStats.bytesSaved 0 →
      s'.registry.nextSegmentId = sₙ.registry.nextSegmentId → Q (.ok id) s') :
    (finishAsync id data.length policy (chunks SEGMENT_SIZE data).zipIdx.length a).wp (Direct P)
      (fun _ _ => True) Q u := by
  unfold finishAsync
  cases he : AsyncState.error a (chunks SEGMENT_SIZE data).zipIdx.length with
  | some e =>
      have herr' := herr fun hw => by
        rw [h.error_eq_none hh hw] at he
        cases he
      simp only
      refine wp_bind_any herr' (fun _ s₁ => ?_) u
      refine wp_bind_any herr' (fun _ s₂ => ?_) s₁
      exact herr' _ _
  | none =>
      simp only
      -- all chunks were committed
      obtain ⟨hcommit, hindex⟩ := AsyncState.error_eq_none he
      obtain ⟨stₙ, sₙ, hafter, hag⟩ := h.agrees hcommit
      unfold After at hafter
      rw [hindex, List.take_length] at hafter
      -- the log after the commit
      have hlog : ∃ u' t', StoreOp.exec (.commit a.transaction) u = (.ok t', u') ∧
          u'.registry = u.registry ∧ u'.nvram.file = sₙ.nvram.file ∧
          ∀ x, (u'.seg x).map Segment.unread = (sₙ.seg x).map Segment.unread := by
        simp only [StoreOp.exec, NvramTransaction.commit, hag.active]
        by_cases hp : a.transaction.pending = []
        · rw [if_neg (by simp), if_pos hp]
          have hfile := hag.file
          have hmap := hag.map
          rw [hp] at hfile hmap
          exact ⟨_, _, rfl, rfl, hfile, hmap⟩
        · rw [if_neg (by simp), if_neg hp]
          exact ⟨_, _, rfl, rfl, hag.file, hag.map⟩
      obtain ⟨u', t', hexec, hreg, hfile, hmap⟩ := hlog
      refine wp_bind.mpr (wp_attempt.mpr (wp_storeOp (.commit a.transaction) ?_))
      rw [hexec]
      refine wp_bind.mpr (wp_registerAll_store _ _ _ fun u₂ hnv₂ hcap₂ hcs₂ hn₂ => ?_)
      have hcontent : ∀ k, u₂.content k = sₙ.content k := fun k => by
        unfold Store.content
        rw [hcs₂, hreg, hag.contentStore]
        exact hag.registered k
      have hcap : u₂.registry.capsules = s₀.registry.capsules := by
        rw [hcap₂, hreg, hag.capsules']
      refine wp_bind.mpr (wp_attempt.mpr (wp_createCapsule_store ?_ ?_))
      · intro hl e
        rw [hcap] at hl
        have herr' := herr fun hw => hl hw.new
        refine wp_bind_any herr' (fun _ s₁ => ?_) _
        refine wp_bind_any herr' (fun _ s₂ => ?_) s₁
        exact herr' _ _
      · intro s' _ hc hn'
        rw [hag.ids] at hc
        have hnext : s'.registry.nextSegmentId = sₙ.registry.nextSegmentId := by
          rw [hn', hn₂, hreg, hag.next]
        have hends : Ends s₀ sₙ data.length stₙ.segmentIds policy id s' := by
          refine .of_created hc rfl hcap hcontent (fun x => ?_) ?_
          · rw [← hmap]
            unfold Store.seg
            rw [hnv₂]
          · rw [hnv₂, hfile]
        show Prog.wp (Direct P) (fun _ _ => True) Q (do
          if 0 < a.dedupStats.bytesSaved then _
          _) s'
        rw [hag.stats]
        split
        · have hcounts := hc.counts.addDedupedBytes stₙ.dedupStats.bytesSaved
          rw [Nat.zero_add] at hcounts
          have hsame : (StoreOp.exec (.addDedupedBytes id stₙ.dedupStats.bytesSaved)
              s').2.registry.nextSegmentId = s'.registry.nextSegmentId := by
            simp only [StoreOp.exec, Store.onRegistry, CapsuleRegistry.addDedupedBytes]
            split <;> rfl
          exact wp_bind.mpr (wp_mapError.mpr (wp_storeOp (.addDedupedBytes id _)
            (hok _ _ _ hafter (hends.addDedupedBytes _) hcounts (hsame.trans hnext))))
        · next h0 =>
            have hzero : stₙ.dedupStats.bytesSaved = 0 := Nat.eq_zero_of_not_pos h0
            exact hok _ _ _ hafter hends (by rw [hzero]; exact hc.counts) hnext

/-- Before the first chunk. -/
theorem follows_start (s₀ : Store P) :
    Follows P policy data s₀ { transaction := s₀.nvram.beginTransaction } s₀ where
  agrees := fun _ => ⟨{}, s₀, rfl, {
    ids := rfl
    active := rfl
    next := rfl
    nextLe := Nat.le_refl _
    capsules := rfl
    capsules' := rfl
    contentStore := rfl
    stats := rfl
    content := fun k => (Option.none_or).symm
    registered := fun _ => rfl
    offset := rfl
    file := rfl
    map := fun _ => rfl
    pendingIds := List.nodup_nil
    pendingNew := fun _ hq => by cases hq
    staged := fun _ _ hk => by cases hk
    stored := fun _ => Iff.rfl
    key := rfl
    key' := rfl }⟩
  ordered := fun _ _ h => by cases h
  stopped := fun h => absurd rfl h
  failed := fun _ _ h => by cases h
  key := rfl
  index := Nat.zero_le _

/-- **The asynchronous write.**  It succeeds where it can be made and no chunk is larger than a task
may hold, and then the synchronous one could have stored its chunks. -/
theorem wp_writeCapsuleAsync_store (hn : s₀.NamesDrawn) {memoryLimit : Nat}
    {arrivals : Order (Bytes × Nat)} {Q : Except Error CapsuleId → Store P → Prop}
    (herr : ¬ (Writable P policy data id s₀ ∧
        ∀ chunk ∈ (chunks SEGMENT_SIZE data).zipIdx, chunk.1.length ≤ memoryLimit) →
      ∀ e s', Q (.error e) s')
    (hok : ∀ stₙ sₙ s', ((chunks SEGMENT_SIZE data).zipIdx.foldlM (writeChunk P policy) {}).run
        StoreOp.exec s₀ = (.ok stₙ, sₙ) →
      Ends s₀ sₙ data.length stₙ.segmentIds policy id s' →
      Counts s' id stₙ.dedupStats.bytesSaved 0 →
      s'.registry.nextSegmentId = sₙ.registry.nextSegmentId → Q (.ok id) s') :
    (writeCapsuleWithPolicyAsync P memoryLimit arrivals id data policy).wp (Direct P)
      (fun _ _ => True) Q s₀ := by
  unfold writeCapsuleWithPolicyAsync
  show Prog.wp (Direct P) (fun _ _ => True) Q (if _ then _ else _) s₀
  split
  · next h0 =>
      -- no chunk, no data
      have hnil : (chunks SEGMENT_SIZE data).zipIdx = [] := List.length_eq_zero_iff.mp h0
      have hdata : data = [] := by
        rw [← chunks_flatten SEGMENT_SIZE_pos data, List.zipIdx_eq_nil_iff.mp hnil]
        rfl
      subst hdata
      refine wp_bind.mpr (wp_mapError.mpr (wp_createCapsule_store
        (fun hl e => herr (fun hw => hl hw.1.new) _ _) fun s' _ hc hn' => ?_))
      exact hok {} s₀ s' rfl (.of_created hc rfl rfl (fun _ => rfl) (fun _ => rfl) rfl) hc.counts
        hn'
  · refine wp_bind.mpr (wp_storeOp .beginTransaction ?_)
    refine andThen_ok.mpr ?_
    dsimp only
    split
    · next chunk hfind =>
        have hlarge : memoryLimit < chunk.1.length := by simpa using List.find?_some hfind
        have herr' := herr fun hw =>
          absurd (hw.2 chunk (List.mem_of_find?_eq_some hfind)) (Nat.not_le.mpr hlarge)
        refine wp_bind_any herr' (fun _ s₁ => ?_) s₀
        exact herr' _ _
    · next hfind =>
        have hlimit : ∀ chunk ∈ (chunks SEGMENT_SIZE data).zipIdx,
            chunk.1.length ≤ memoryLimit := fun chunk hc =>
          Nat.not_lt.mp fun hlt => List.find?_eq_none.mp hfind chunk hc (decide_eq_true hlt)
        refine wp_bind.mpr (wp_foldlM (fun rest a u => Follows P policy data s₀ a u ∧
          (a.commitError = none → Handled data rest a) ∧
          ∀ chunk ∈ rest, (chunks SEGMENT_SIZE data).zipIdx[chunk.2]? = some chunk) ?_ ?_ _ _ _
          ⟨follows_start s₀, fun _ => ⟨fun i chunk hc => ?_, .inl rfl⟩, fun chunk hc => ?_⟩)
        · rintro chunk rest a u ⟨hf, hh, hrest⟩
          refine wp_mono (wp_arrive_store hn (hrest chunk List.mem_cons_self) hf hh)
            fun r u' hr => ?_
          obtain ⟨a', rfl, hf', hh'⟩ := hr
          exact ⟨hf', hh', fun c hc => hrest c (List.mem_cons_of_mem _ hc)⟩
        · rintro a u ⟨hf, hh, -⟩
          exact wp_finishAsync_store hf hh (fun hw => herr fun k => hw k.1) hok
        · exact .inl ((Order.mem_reorder arrivals).mpr (List.mem_of_getElem? hc))
        · rw [List.getElem?_zipIdx,
            List.mem_zipIdx_iff_getElem?.mp ((Order.mem_reorder arrivals).mp hc), Option.map_some,
            Nat.zero_add]

/-- What the two writes leave is the same: `s` after the synchronous one, `s'` after the
asynchronous one. -/
structure SameWrite (s₀ : Store P) (id : CapsuleId) (s : Store P) (id' : CapsuleId)
    (s' : Store P) : Prop where
  capsule : ∃ c c', s.registry.capsules.lookup id = some c ∧
    s'.registry.capsules.lookup id' = some c' ∧ c'.size = c.size ∧ c'.policy = c.policy ∧
    c'.segments = c.segments
  others : ∀ id₁, id₁ ≠ id → s.registry.capsules.lookup id₁ = s₀.registry.capsules.lookup id₁
  others' : ∀ id₁, id₁ ≠ id' → s'.registry.capsules.lookup id₁ = s₀.registry.capsules.lookup id₁
  content : ∀ h, s'.content h = s.content h
  segments : ∀ x, (s'.seg x).map Segment.unread = (s.seg x).map Segment.unread
  bytes : ∀ x, s'.nvram.read x = s.nvram.read x

theorem read_congr (hseg : (s'.seg x).map Segment.unread = (s.seg x).map Segment.unread)
    (hfile : s'.nvram.file = s.nvram.file) : s'.nvram.read x = s.nvram.read x := by
  unfold NvramLog.read
  unfold Store.seg at hseg
  rw [hfile]
  cases h : s.nvram.segmentMap.lookup x with
  | none =>
      rw [h, Option.map_none, Option.map_eq_none_iff] at hseg
      rw [hseg]
  | some t =>
      rw [h, Option.map_some, Option.map_eq_some_iff] at hseg
      obtain ⟨t', ht', he⟩ := hseg
      have ho : t'.unread.offset = t.unread.offset := congrArg Segment.offset he
      have hl : t'.unread.len = t.unread.len := congrArg Segment.len he
      change t'.offset = t.offset at ho
      change t'.len = t.len at hl
      rw [ht']
      simp only [ho, hl]

/-- **The asynchronous write ends like the synchronous one**, whenever both succeed, whatever the
order in which the chunks arrive. -/
theorem writeAsync_agrees {memoryLimit : Nat} {arrivals : Order (Bytes × Nat)}
    {id id' r r' : CapsuleId} {s s' : Store P} (hn : s₀.NamesDrawn)
    (hs : (writeCapsuleWithPolicy P id data policy).run StoreOp.exec s₀ = (.ok r, s))
    (ha : (writeCapsuleWithPolicyAsync P memoryLimit arrivals id' data policy).run StoreOp.exec s₀ =
      (.ok r', s')) : SameWrite s₀ id s id' s' := by
  -- how the synchronous write ends
  have hsync : (writeCapsuleWithPolicy P id data policy).wp (Direct P) (fun _ _ => True)
      (fun r s => ∀ i, r = .ok i → ∃ stₙ sₙ,
        ((chunks SEGMENT_SIZE data).zipIdx.foldlM (writeChunk P policy) {}).run StoreOp.exec s₀ =
          (.ok stₙ, sₙ) ∧ Ends s₀ sₙ data.length stₙ.segmentIds policy id s) s₀ :=
    wp_writeCapsule_store (fun _ e s => nofun) fun stₙ sₙ s h he _ _ _ _ => ⟨stₙ, sₙ, h, he⟩
  have hrun := wp_run hsync
  rw [hs] at hrun
  obtain ⟨stₙ, sₙ, hall, hends⟩ := hrun r rfl
  -- and the asynchronous one
  have hasync : (writeCapsuleWithPolicyAsync P memoryLimit arrivals id' data policy).wp (Direct P)
      (fun _ _ => True)
      (fun r s => ∀ i, r = .ok i → Ends s₀ sₙ data.length stₙ.segmentIds policy id' s) s₀ :=
    wp_writeCapsuleAsync_store hn (fun _ e s => nofun) fun st S s h he _ _ _ _ => by
      rw [hall] at h
      cases h
      exact he
  have hrun' := wp_run hasync
  rw [ha] at hrun'
  have hends' := hrun' r' rfl
  obtain ⟨b, hb⟩ := hends.cap
  obtain ⟨b', hb'⟩ := hends'.cap
  have hseg : ∀ x, (s'.seg x).map Segment.unread = (s.seg x).map Segment.unread := fun x =>
    (hends'.segments x).trans (hends.segments x).symm
  exact {
    capsule := ⟨_, _, hb, hb', rfl, rfl, rfl⟩
    others := hends.others
    others' := hends'.others
    content := fun k => (hends'.content k).trans (hends.content k).symm
    segments := hseg
    bytes := fun x => read_congr (hseg x) (hends'.file.trans hends.file.symm) }

/-- No compression and no encryption. -/
def plainStored : Policy where
  compression := .none

/-- A store with one capsule of one chunk. -/
def oneChunk : Store .stored :=
  ((writeCapsuleWithPolicy .stored ⟨0⟩ unframed plainStored).run StoreOp.exec (.empty none)).2

theorem oneChunk_content {h : ContentHash} {x : SegmentId} (hx : oneChunk.content h = some x) :
    x = ⟨0⟩ := by
  have hstore : oneChunk.registry.contentStore =
      (∅ : Table ContentHash SegmentId).insert (hashContent .stored unframed) ⟨0⟩ := rfl
  unfold Store.content at hx
  rw [hstore] at hx
  rcases Table.lookup_insert_eq_some.mp hx with ⟨-, e⟩ | ⟨-, k⟩
  · exact e.symm
  · cases k

theorem namesDrawn_oneChunk : oneChunk.NamesDrawn := fun h x segment hx _ => by
  rw [oneChunk_content hx]
  decide +kernel

/-- Both writes of whatever data succeed there. -/
theorem writes_oneChunk (data : Bytes) (arrivals : Order (Bytes × Nat)) :
    (∃ s, (writeCapsuleWithPolicy .stored ⟨1⟩ data plainStored).run StoreOp.exec oneChunk =
      (.ok ⟨1⟩, s)) ∧
    ∃ s, (writeCapsuleWithPolicyAsync .stored SEGMENT_SIZE arrivals ⟨2⟩ data plainStored).run
      StoreOp.exec oneChunk = (.ok ⟨2⟩, s) := by
  have hlive : ∀ h x, oneChunk.content h = some x → oneChunk.seg x ≠ none := fun h x hx => by
    rw [oneChunk_content hx]
    exact Option.isSome_iff_ne_none.mp (by decide +kernel)
  have hprepared : ∀ chunk : Bytes × Nat,
      sealedChunk .stored (oneChunk.keyFor plainStored) plainStored chunk ≠ none := fun chunk =>
    Option.some_ne_none _
  obtain ⟨stₙ, sₙ, hall⟩ := chunks_stored plainStored (chunks SEGMENT_SIZE data).zipIdx {}
    oneChunk hlive fun chunk _ => hprepared chunk
  obtain ⟨s, hs, -⟩ := writeCapsule_ok hall
    (show oneChunk.registry.capsules.lookup ⟨1⟩ = none from rfl)
  have hasync : (writeCapsuleWithPolicyAsync .stored SEGMENT_SIZE arrivals ⟨2⟩ data
      plainStored).wp (Direct .stored) (fun _ _ => True) (fun r _ => r = .ok ⟨2⟩) oneChunk :=
    wp_writeCapsuleAsync_store namesDrawn_oneChunk (fun hno _ _ => absurd
      ⟨⟨rfl, hlive, fun chunk _ => hprepared chunk⟩, fun chunk hc =>
        (chunks_mem SEGMENT_SIZE_pos (List.fst_mem_of_mem_zipIdx hc)).2⟩ hno)
      fun _ _ _ _ _ _ _ => rfl
  exact ⟨⟨s, hs⟩, _, Prod.ext (wp_run hasync) rfl⟩

/-- A chunk that is new and one that is stored already, of which the second arrives first. -/
theorem writeAsync_agrees_sample : ∃ s s',
    chunks SEGMENT_SIZE (List.replicate SEGMENT_SIZE 0 ++ unframed) =
      [List.replicate SEGMENT_SIZE 0, unframed] ∧
    (writeCapsuleWithPolicy .stored ⟨1⟩ (List.replicate SEGMENT_SIZE 0 ++ unframed)
      plainStored).run StoreOp.exec oneChunk = (.ok ⟨1⟩, s) ∧
    (writeCapsuleWithPolicyAsync .stored SEGMENT_SIZE ⟨List.reverse, List.reverse_perm⟩ ⟨2⟩
      (List.replicate SEGMENT_SIZE 0 ++ unframed) plainStored).run StoreOp.exec oneChunk =
      (.ok ⟨2⟩, s') ∧ SameWrite oneChunk ⟨1⟩ s ⟨2⟩ s' := by
  have hlen : (List.replicate SEGMENT_SIZE (0 : UInt8)).length = SEGMENT_SIZE :=
    List.length_replicate
  have hne : List.replicate SEGMENT_SIZE (0 : UInt8) ≠ [] := fun e => by
    rw [e] at hlen
    exact absurd hlen (Nat.ne_of_lt SEGMENT_SIZE_pos)
  have hchunks : chunks SEGMENT_SIZE (List.replicate SEGMENT_SIZE 0 ++ unframed) =
      [List.replicate SEGMENT_SIZE 0, unframed] := by
    rw [chunks_append hne hlen, chunks_of_length_le (by decide) (by decide)]
  generalize List.replicate SEGMENT_SIZE (0 : UInt8) ++ unframed = data at hchunks ⊢
  obtain ⟨⟨s, hs⟩, s', ha⟩ := writes_oneChunk data ⟨List.reverse, List.reverse_perm⟩
  exact ⟨s, s', hchunks, hs, ha, writeAsync_agrees namesDrawn_oneChunk hs ha⟩

/-! ### A content store that names an identifier still to be drawn -/

/-- Hashes that tell one byte from more. -/
def shortHashes : Primitives :=
  { Primitives.stored with
    blake3 := fun data => match data with
      | [_] => .ofPrefix 32 [1]
      | _ => .ofPrefix 32 [0] }

/-- The hash of a byte names segment 0, which is there, and is the next one to be drawn. -/
def undrawn : Store shortHashes where
  registry := { CapsuleRegistry.empty with
    contentStore := (∅ : Table ContentHash SegmentId).insert (hashContent shortHashes [0]) ⟨0⟩ }
  nvram := { NvramLog.empty with
    segmentMap := (∅ : Table SegmentId Segment).insert ⟨0⟩ (Segment.appended ⟨0⟩ 0 0) }
  keyManager := none

/-- **Not from every state**: of two chunks the first is stored as segment 0 and the second is a
hit on it.  The asynchronous write takes the reference before it puts the new segment 0 in. -/
theorem not_writeAsync_agrees :
    ¬ ∀ (P : Primitives) (policy : Policy) (data : Bytes) (memoryLimit : Nat)
      (arrivals : Order (Bytes × Nat)) (id id' r r' : CapsuleId) (s₀ s s' : Store P),
      (writeCapsuleWithPolicy P id data policy).run StoreOp.exec s₀ = (.ok r, s) →
      (writeCapsuleWithPolicyAsync P memoryLimit arrivals id' data policy).run StoreOp.exec s₀ =
        (.ok r', s') → SameWrite s₀ id s id' s' := by
  intro h
  -- a full chunk, and one byte
  obtain ⟨rest, hrest⟩ : ∃ rest : Bytes, rest.length + 2 = SEGMENT_SIZE :=
    ⟨List.replicate (SEGMENT_SIZE - 2) 0, by rw [List.length_replicate]; decide⟩
  have hchunks : (chunks SEGMENT_SIZE (0 :: 0 :: rest ++ [0])).zipIdx =
      [(0 :: 0 :: rest, 0), ([0], 1)] := by
    rw [chunks_append (by simp) (by rw [← hrest]; rfl),
      chunks_of_length_le (l := [0]) (by simp) (by decide)]
    rfl
  have hsync : ∃ st S, ([((0 :: 0 :: rest : Bytes), 0), ([0], 1)].foldlM
      (writeChunk shortHashes plainStored) {}).run StoreOp.exec undrawn = (.ok st, S) ∧
      (S.seg ⟨0⟩).map (Segment.refCount ∘ Segment.unread) = some 2 := ⟨_, _, rfl, rfl⟩
  obtain ⟨st, S, hall, h2⟩ := hsync
  rw [← hchunks] at hall
  have hwrite : ∃ s, (writeCapsuleWithPolicy shortHashes ⟨0⟩ (0 :: 0 :: rest ++ [0])
      plainStored).run StoreOp.exec undrawn = (.ok ⟨0⟩, s) ∧
      Ends undrawn S (0 :: 0 :: rest ++ [0]).length st.segmentIds plainStored ⟨0⟩ s :=
    writeCapsule_ok hall rfl
  obtain ⟨s, hs, hends⟩ := hwrite
  have hasync : ∃ s', (writeCapsuleWithPolicyAsync shortHashes (rest.length + 2) .asGiven ⟨1⟩
      (0 :: 0 :: rest ++ [0]) plainStored).run StoreOp.exec undrawn = (.ok ⟨1⟩, s') ∧
      (s'.seg ⟨0⟩).map (Segment.refCount ∘ Segment.unread) = some 1 := by
    unfold writeCapsuleWithPolicyAsync
    rw [hchunks]
    have hfind : ([(0 :: 0 :: rest, 0), ([0], 1)] : List (Bytes × Nat)).find?
        (fun chunk => decide (rest.length + 2 < chunk.1.length)) = none := by simp
    simp only [hfind]
    exact ⟨_, rfl, rfl⟩
  obtain ⟨s', ha, h1⟩ := hasync
  have hsame := (h _ _ _ _ _ _ _ _ _ _ _ _ hs ha).segments ⟨0⟩
  have hcount : ∀ t : Option Segment, t.map (Segment.refCount ∘ Segment.unread) =
      (t.map Segment.unread).map Segment.refCount := fun t => (Option.map_map _ _ t).symm
  rw [hcount, hsame, hends.segments, ← hcount, h2] at h1
  cases h1

end WritePipeline

end Space
