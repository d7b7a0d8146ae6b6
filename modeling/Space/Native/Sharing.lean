import Space.Native.Integrity

/-!
# Native — Sharing

A capsule whose policy opts out of deduplication keeps its segments to itself: each is listed once,
by no other capsule, with one reference and under no hash.  Whatever other threads do in the store,
they do it to segments that they came by: those they drew, those they found under a hash, those of
a capsule they removed, and those that were listed without references.

* `Store.Alone`, `Store.Apart`: the invariant.
* `Shares.Inv.touch`: it is kept by what is done to such segments alone.
* `sharing`: the protocol of a thread, and `Command.shares`: every command but an opted-out write
  meets it.
-/

namespace Space
open Support Prog

variable {P : Primitives} {s s' : Store P} {x : SegmentId} {id : CapsuleId} {policy : Policy}
  {g f : Multiset SegmentId}

/-! ### The invariant -/

namespace Store

def cap (s : Store P) (id : CapsuleId) : Option Capsule := s.registry.capsules.lookup id

/-- The next identifier to be drawn. -/
def next (s : Store P) : Nat := s.registry.nextSegmentId

/-- The segments of a capsule are its own: each is listed once, and by no other capsule, has one
reference, and is in the content store under no hash. -/
structure Alone (s : Store P) (id : CapsuleId) (c : Capsule) : Prop where
  once : c.segments.Nodup
  only : ∀ id' c', s.cap id' = some c' → ∀ x ∈ c.segments, x ∈ c'.segments → id' = id
  counted : ∀ x ∈ c.segments, ∃ segment, s.seg x = some segment ∧ segment.refCount = 1
  hidden : ∀ hash x, s.content hash = some x → x ∉ c.segments

/-- The capsules that opt out are alone; no identifier is in use that was not drawn. -/
structure Apart (s : Store P) : Prop where
  keyed : ∀ x segment, s.seg x = some segment → segment.id = x ∧ x.val < s.next
  content : ∀ hash x, s.content hash = some x → x.val < s.next
  listed : ∀ id c, s.cap id = some c → ∀ x ∈ c.segments, x.val < s.next
  alone : ∀ id c, s.cap id = some c → c.policy.dedupe = false → s.Alone id c

/-- No capsule that opts out lists the segment. -/
def Common (s : Store P) (x : SegmentId) : Prop :=
  ∀ id c, s.cap id = some c → c.policy.dedupe = false → x ∉ c.segments

theorem Apart.empty (km : Option (KeyManager P)) : (Store.empty km).Apart where
  keyed := fun _ _ h => by cases h
  content := fun _ _ h => by cases h
  listed := fun _ _ h => by cases h
  alone := fun _ _ h => by cases h

end Store

namespace NvramTransaction

/-- What is installed is installed under its identifier. -/
theorem installPending_keyed : ∀ {l : List PendingSegment} {m : Table SegmentId Segment}
    {segment : Segment}, (∀ x segment, m.lookup x = some segment → segment.id = x) →
    (installPending l m).lookup x = some segment → segment.id = x
  | [], _, _, hm, h => hm _ _ h
  | p :: l, m, _, hm, h => by
      refine installPending_keyed (l := l) (m := m.insert p.segment.id p.segment) ?_ h
      intro y segment hy
      rcases Table.lookup_insert_eq_some.mp hy with ⟨rfl, rfl⟩ | ⟨-, hy⟩
      · rfl
      · exact hm y segment hy

/-- Changing the metadata of a pending segment does not change its identifier. -/
theorem modifyPending_ids {x : SegmentId} {f : Segment → Segment}
    (hf : ∀ segment, segment.id = x → (f segment).id = x) : ∀ {l l' : List PendingSegment},
    modifyPending x f l = some l' →
      (l'.map fun p => p.segment.id) = l.map fun p => p.segment.id
  | [], _, h => by cases h
  | p :: l, l', h => by
      rw [modifyPending] at h
      split at h
      · next e =>
          cases h
          rw [List.map_cons, List.map_cons, hf _ e, e]
      · obtain ⟨l₁, h₁, rfl⟩ := Option.map_eq_some_iff.mp h
        rw [List.map_cons, List.map_cons, modifyPending_ids hf h₁]

/-- So it is for a transaction. -/
theorem withSegmentMut_ids {t t' : NvramTransaction} {x : SegmentId} {f : Segment → Segment}
    (hf : ∀ segment, segment.id = x → (f segment).id = x) (h : t.withSegmentMut x f = .ok t') :
    (t'.pending.map fun p => p.segment.id) = t.pending.map fun p => p.segment.id := by
  obtain ⟨pending, hm, rfl⟩ := withSegmentMut_eq h
  exact modifyPending_ids hf hm

end NvramTransaction

/-! ### What a thread does -/

namespace Shares

/-- What a thread knows: no capsule that opts out lists what it may touch. -/
structure Inv (s : Store P) (g : Multiset SegmentId) : Prop where
  apart : s.Apart
  drawn : ∀ x ∈ g, x.val < s.next
  common : ∀ x ∈ g, s.Common x

/-- What is touched is in `g`, and what a new capsule lists too; it does not opt out. -/
structure Touches (g : Multiset SegmentId) (s s' : Store P) : Prop where
  next : s.next ≤ s'.next
  seg : ∀ x, s'.seg x = s.seg x ∨ x ∈ g ∧ ∀ segment, s'.seg x = some segment → segment.id = x
  content : ∀ hash x, s'.content hash = some x → s.content hash = some x ∨ x ∈ g
  cap : ∀ id c', s'.cap id = some c' →
    (∃ c, s.cap id = some c ∧ c'.segments = c.segments ∧ c'.policy = c.policy) ∨
      c'.policy.dedupe = true ∧ ∀ x ∈ c'.segments, x ∈ g

/-- The registry and the log are as they were. -/
theorem Touches.same (hr : s'.registry = s.registry) (hn : s'.nvram = s.nvram) :
    Touches g s s' where
  next := by
    unfold Store.next
    rw [hr]
  seg := fun x => .inl (by rw [Store.seg, hn]; rfl)
  content := fun hash x h => .inl (by rwa [Store.content, hr] at h)
  cap := fun id c' h => .inl ⟨c', by rwa [Store.cap, hr] at h, rfl, rfl⟩

namespace Touches

/-- Only the log is changed. -/
theorem log {log : NvramLog} (h : ∀ x, log.segmentMap.lookup x = s.seg x ∨
    x ∈ g ∧ ∀ segment, log.segmentMap.lookup x = some segment → segment.id = x) :
    Touches g s { s with nvram := log } :=
  ⟨le_refl _, h, fun _ _ k => .inl k, fun _ c' k => .inl ⟨c', k, rfl, rfl⟩⟩

/-- One entry of the segment map. -/
theorem insert {segment : Segment} {log : NvramLog}
    (hm : log.segmentMap = s.nvram.segmentMap.insert x segment) (hx : x ∈ g)
    (hid : segment.id = x) : Touches g s { s with nvram := log } := by
  refine .log fun y => ?_
  rw [hm, Table.lookup_insert]
  split
  · next e =>
      subst e
      refine .inr ⟨hx, fun segment' h => ?_⟩
      cases h
      exact hid
  · exact .inl rfl

/-- Only the registry is changed. -/
theorem registry {reg : CapsuleRegistry} (hn : s.next ≤ reg.nextSegmentId)
    (hc : ∀ hash x, reg.contentStore.lookup hash = some x → s.content hash = some x ∨ x ∈ g)
    (hcap : ∀ id c', reg.capsules.lookup id = some c' →
      (∃ c, s.cap id = some c ∧ c'.segments = c.segments ∧ c'.policy = c.policy) ∨
        c'.policy.dedupe = true ∧ ∀ x ∈ c'.segments, x ∈ g) :
    Touches g s { s with registry := reg } :=
  ⟨hn, fun _ => .inl rfl, hc, hcap⟩

theorem remove (hx : x ∈ g) : Touches g s { s with nvram := (s.nvram.removeSegment x).2 } := by
  refine .log fun y => ?_
  rw [NvramLog.removeSegment_lookup]
  split
  · next e =>
      subst e
      exact .inr ⟨hx, fun _ h => by cases h⟩
  · exact .inl rfl

theorem deregister (hash : ContentHash) (x : SegmentId) :
    Touches g s { s with registry := (s.registry.deregisterContent hash x).2 } := by
  unfold CapsuleRegistry.deregisterContent
  split
  · exact .registry (le_refl _) (fun k y h => .inl (Table.lookup_erase_eq_some.mp h).2)
      fun _ c' h => .inl ⟨c', h, rfl, rfl⟩
  · exact .same rfl rfl

theorem register {hash : ContentHash} (hx : x ∈ g) :
    Touches g s { s with registry := s.registry.registerContent hash x } := by
  refine .registry (le_refl _) (fun k y h => ?_) fun _ c' h => .inl ⟨c', h, rfl, rfl⟩
  rcases Table.lookup_insert_eq_some.mp h with ⟨-, rfl⟩ | ⟨-, h⟩
  · exact .inr hx
  · exact .inl h

theorem create {size : Nat} {l : List SegmentId} (hd : policy.dedupe = true)
    (hl : ∀ x ∈ l, x ∈ g) : Touches g s
      { s with registry := (s.registry.createCapsuleWithSegments id size l policy).2 } := by
  unfold CapsuleRegistry.createCapsuleWithSegments
  split
  · exact .same rfl rfl
  · refine .registry (le_refl _) (fun _ _ h => .inl h) fun id' c' h => ?_
    rcases Table.lookup_insert_eq_some.mp h with ⟨-, rfl⟩ | ⟨-, h⟩
    · exact .inr ⟨hd, hl⟩
    · exact .inl ⟨c', h, rfl, rfl⟩

theorem commit {t : NvramTransaction} (hk : ∀ x segment, s.seg x = some segment → segment.id = x)
    (ht : ∀ p ∈ t.pending, p.segment.id ∈ g) :
    Touches g s { s with nvram := (t.commit s.nvram).2 } := by
  unfold NvramTransaction.commit
  split
  · exact .same rfl rfl
  split
  · exact .same rfl rfl
  · refine .log fun x => ?_
    by_cases hx : ∀ p ∈ t.pending, p.segment.id ≠ x
    · exact .inl (NvramTransaction.lookup_installPending_of_not_mem hx)
    · obtain ⟨p, hp, e⟩ : ∃ p ∈ t.pending, p.segment.id = x := by
        by_contra hne
        exact hx fun p hp e => hne ⟨p, hp, e⟩
      exact .inr ⟨e ▸ ht p hp, fun _ h => NvramTransaction.installPending_keyed hk h⟩

end Touches

/-- **What touches only what the thread may touch keeps the invariant.** -/
theorem Inv.touch (h : Inv s g) (ht : Touches g s s') : Inv s' g := by
  have hdrawn : ∀ y ∈ g, y.val < s'.next := fun y hy => (h.drawn y hy).trans_le ht.next
  -- a capsule that opts out was there before
  have hold : ∀ id c', s'.cap id = some c' → c'.policy.dedupe = false →
      ∃ c, s.cap id = some c ∧ c'.segments = c.segments ∧ c.policy.dedupe = false := by
    intro id c' hc hd
    rcases ht.cap id c' hc with ⟨c, hc₀, hs, hp⟩ | ⟨hd', -⟩
    · exact ⟨c, hc₀, hs, hp ▸ hd⟩
    · rw [hd] at hd'
      cases hd'
  refine ⟨⟨fun y segment hy => ?_, fun hash y hy => ?_, fun id c' hc y hy => ?_,
    fun id c' hc hd => ?_⟩, hdrawn, fun y hy id c' hc hd => ?_⟩
  · rcases ht.seg y with e | ⟨hg, hid⟩
    · rw [e] at hy
      obtain ⟨hid, hlt⟩ := h.apart.keyed y segment hy
      exact ⟨hid, hlt.trans_le ht.next⟩
    · exact ⟨hid segment hy, hdrawn y hg⟩
  · rcases ht.content hash y hy with hy | hg
    · exact (h.apart.content hash y hy).trans_le ht.next
    · exact hdrawn y hg
  · rcases ht.cap id c' hc with ⟨c, hc₀, hs, -⟩ | ⟨-, hl⟩
    · exact (h.apart.listed id c hc₀ y (hs ▸ hy)).trans_le ht.next
    · exact hdrawn y (hl y hy)
  · obtain ⟨c, hc₀, hs, hd₀⟩ := hold id c' hc hd
    have ha := h.apart.alone id c hc₀ hd₀
    refine ⟨hs ▸ ha.once, fun id' c'' hc' y hy hy' => ?_, fun y hy => ?_, fun hash y hy hm => ?_⟩
    · rw [hs] at hy
      rcases ht.cap id' c'' hc' with ⟨c₂, hc₂, hs₂, -⟩ | ⟨-, hl⟩
      · exact ha.only id' c₂ hc₂ y hy (hs₂ ▸ hy')
      · exact absurd hy (h.common y (hl y hy') id c hc₀ hd₀)
    · rw [hs] at hy
      rcases ht.seg y with e | ⟨hg, -⟩
      · rw [e]
        exact ha.counted y hy
      · exact absurd hy (h.common y hg id c hc₀ hd₀)
    · rw [hs] at hm
      rcases ht.content hash y hy with hy | hg
      · exact ha.hidden hash y hy hm
      · exact h.common y hg id c hc₀ hd₀ hm
  · obtain ⟨c, hc₀, hs, hd₀⟩ := hold id c' hc hd
    rw [hs]
    exact h.common y hy id c hc₀ hd₀

theorem Inv.mono {k : Multiset SegmentId} (h : Inv s g) (hle : k ≤ g) : Inv s k :=
  ⟨h.apart, fun x hx => h.drawn x (Multiset.mem_of_le hle hx),
    fun x hx => h.common x (Multiset.mem_of_le hle hx)⟩

/-- At first a thread may touch nothing. -/
theorem Inv.start (h : s.Apart) : Inv s 0 :=
  ⟨h, fun _ hx => absurd hx (Multiset.notMem_zero _), fun _ hx =>
    absurd hx (Multiset.notMem_zero _)⟩

/-- Segments may be added that no capsule that opts out lists. -/
theorem Inv.add {k : Multiset SegmentId} (h : Inv s g)
    (hk : ∀ x ∈ k, x.val < s.next ∧ s.Common x) : Inv s (k + g) where
  apart := h.apart
  drawn := fun x hx => (Multiset.mem_add.mp hx).elim (fun hx => (hk x hx).1) (h.drawn x)
  common := fun x hx => (Multiset.mem_add.mp hx).elim (fun hx => (hk x hx).2) (h.common x)

/-! ### The protocol -/

/-- What an operation is called on, the thread may touch. -/
def may : StoreOp → Multiset SegmentId → Prop
  | .registerContent _ x, g => x ∈ g
  | .append x _, g => x ∈ g
  | .incrementRefcount x, g => x ∈ g
  | .decrementRefcount x, g => x ∈ g
  | .removeSegment x, g => x ∈ g
  | .updateSegmentMetadata x segment, g => x ∈ g ∧ segment.id = x
  | .commit t, g => ∀ p ∈ t.pending, p.segment.id ∈ g
  | .createCapsuleWithSegments _ _ segments policy, g =>
    policy.dedupe = true ∧ ∀ x ∈ segments, x ∈ g
  | _, _ => True

/-- What it may touch from then on. -/
def gains : (o : StoreOp) → Except Error o.Res → Multiset SegmentId
  | .allocSegment, .ok x => {x}
  | .lookupContent _, .ok (some x) => {x}
  | .deleteCapsule _, .ok c => c.segments
  | .listSegments _, .ok l => (l.filter fun segment => segment.refCount = 0).map Segment.id
  | _, _ => 0

/-- What else the answer says. -/
def tells : (o : StoreOp) → Except Error o.Res → Prop
  | .append x _, .ok segment => segment.id = x
  | .beginTransaction, .ok t => t.pending = []
  | .appendSegment t x _, .ok r => r.1.id = x ∧
    (r.2.pending.map fun p => p.segment.id) = (t.pending.map fun p => p.segment.id) ++ [x]
  | _, _ => True

def moves : Moves StoreSig Error (Multiset SegmentId) := fun o g r g' =>
  tells o r ∧ g' = gains o r + g

variable {o : StoreOp}

/-- The operations that touch. -/
theorem touches (h : Inv s g) (hm : may o g) : Touches g s (o.exec s).2 := by
  have hkeyed : ∀ x segment, s.seg x = some segment → segment.id = x := fun x segment hx =>
    (h.apart.keyed x segment hx).1
  cases o with
  | allocSegment =>
      exact .registry (Nat.le_succ _) (fun _ _ k => .inl k) fun _ c' k => .inl ⟨c', k, rfl, rfl⟩
  | registerContent hash x => exact .register hm
  | deregisterContent hash x => exact .deregister hash x
  | addDedupedBytes id n =>
      show Touches g s { s with registry := s.registry.addDedupedBytes id n }
      unfold CapsuleRegistry.addDedupedBytes
      split
      · exact .same rfl rfl
      · next c hc =>
          refine .registry (le_refl _) (fun _ _ k => .inl k) fun id' c' k => .inl ?_
          rcases Table.lookup_insert_eq_some.mp k with ⟨rfl, rfl⟩ | ⟨-, k⟩
          · exact ⟨c, hc, rfl, rfl⟩
          · exact ⟨c', k, rfl, rfl⟩
  | deleteCapsule id =>
      show Touches g s { s with registry := (s.registry.deleteCapsule id).2 }
      unfold CapsuleRegistry.deleteCapsule
      split
      · exact .same rfl rfl
      · exact .registry (le_refl _) (fun _ _ k => .inl k) fun id' c' k =>
          .inl ⟨c', (Table.lookup_erase_eq_some.mp k).2, rfl, rfl⟩
  | createCapsuleWithSegments id size l policy => exact .create hm.1 hm.2
  | append x data => exact .insert rfl hm rfl
  | incrementRefcount x =>
      show Touches g s { s with nvram := (s.nvram.incrementRefcount x).2 }
      unfold NvramLog.incrementRefcount
      split
      · exact .same rfl rfl
      · next segment hx =>
          exact .insert rfl hm (hkeyed x segment hx)
  | decrementRefcount x =>
      show Touches g s { s with nvram := (s.nvram.decrementRefcount x).2 }
      unfold NvramLog.decrementRefcount
      split
      · exact .same rfl rfl
      · next segment hx =>
          split
          · exact .same rfl rfl
          · exact .insert rfl hm (hkeyed x segment hx)
  | removeSegment x => exact .remove hm
  | updateSegmentMetadata x segment => exact .insert rfl hm.1 hm.2
  | appendSegment t x data =>
      show Touches g s { s with nvram := (t.appendSegment x data s.nvram).2 }
      unfold NvramTransaction.appendSegment
      split
      · exact .same rfl rfl
      · exact .log fun _ => .inl rfl
  | commit t => exact .commit hkeyed hm
  | rollback t =>
      show Touches g s { s with nvram := (t.rollback s.nvram).2 }
      unfold NvramTransaction.rollback
      split
      · exact .same rfl rfl
      · exact .log fun _ => .inl rfl
  | currentKey => exact .same (Store.currentKey_snd s).1 (Store.currentKey_snd s).2.1
  | getKey v =>
      show Touches g s (s.getKey v).2
      unfold Store.getKey
      split
      · exact .same rfl rfl
      · split <;> exact .same rfl rfl
  | _ => exact .same rfl rfl

/-- What an operation gives is not listed by a capsule that opts out. -/
theorem gained (h : s.Apart) : ∀ x ∈ gains o (o.exec s).1,
    x.val < (o.exec s).2.next ∧ (o.exec s).2.Common x := by
  intro x hx
  cases o with
  | allocSegment =>
      obtain rfl := Multiset.mem_singleton.mp hx
      refine ⟨Nat.lt_succ_self _, fun id c hc _ hm => ?_⟩
      exact absurd (h.listed id c hc _ hm) (Nat.lt_irrefl _)
  | lookupContent hash =>
      have hx : x ∈ gains (.lookupContent hash) (.ok (s.content hash)) := hx
      cases hc : s.content hash with
      | none =>
          rw [hc] at hx
          exact absurd hx (Multiset.notMem_zero _)
      | some y =>
          rw [hc] at hx
          obtain rfl := Multiset.mem_singleton.mp hx
          exact ⟨h.content hash x hc, fun id c hcap hd => (h.alone id c hcap hd).hidden hash x hc⟩
  | deleteCapsule id =>
      have hx : x ∈ gains (.deleteCapsule id) (s.registry.deleteCapsule id).1 := hx
      show x.val < (s.registry.deleteCapsule id).2.nextSegmentId ∧
        Store.Common { s with registry := (s.registry.deleteCapsule id).2 } x
      unfold CapsuleRegistry.deleteCapsule at hx ⊢
      split at hx
      · exact absurd hx (Multiset.notMem_zero _)
      · next c hc =>
          have hmem : x ∈ c.segments := hx
          refine ⟨h.listed id c hc x hmem, fun id' c' hc' hd hm => ?_⟩
          obtain ⟨hne, hc'⟩ := Table.lookup_erase_eq_some.mp hc'
          exact hne ((h.alone id' c' hc' hd).only id c hc x hm hmem).symm
  | listSegments ord =>
      obtain ⟨segment, hs, rfl⟩ := List.mem_map.mp (Multiset.mem_coe.mp hx)
      obtain ⟨hs, hzero⟩ := List.mem_filter.mp hs
      obtain ⟨y, hy⟩ := Table.mem_values.mp ((Order.mem_reorder ord).mp hs)
      obtain ⟨rfl, hlt⟩ := h.keyed y segment hy
      refine ⟨hlt, fun id c hc hd hm => ?_⟩
      obtain ⟨segment', hs', hone⟩ := (h.alone id c hc hd).counted _ hm
      rw [show s.seg segment.id = some segment from hy] at hs'
      cases hs'
      rw [of_decide_eq_true hzero] at hone
      cases hone
  | _ => exact absurd hx (Multiset.notMem_zero _)

theorem told (o : StoreOp) (s : Store P) : tells o (o.exec s).1 := by
  cases o with
  | append x data => exact rfl
  | beginTransaction => exact rfl
  | appendSegment t x data =>
      show tells (.appendSegment t x data) (t.appendSegment x data s.nvram).1
      unfold NvramTransaction.appendSegment
      split
      · trivial
      · exact ⟨rfl, List.map_append⟩
  | _ => trivial

/-- **One operation.** -/
theorem step (h : Inv s (g + f)) (hm : may o g) :
    ∃ g', moves o g (o.exec s).1 g' ∧ Inv (o.exec s).2 (g' + f) := by
  have hmay : may o (g + f) := by
    have hmem {y : SegmentId} (hy : y ∈ g) : y ∈ g + f := Multiset.mem_add.mpr (.inl hy)
    cases o with
    | updateSegmentMetadata x segment => exact ⟨hmem hm.1, hm.2⟩
    | commit t => exact fun p hp => hmem (hm p hp)
    | createCapsuleWithSegments id size l policy => exact ⟨hm.1, fun x hx => hmem (hm.2 x hx)⟩
    | _ => first | exact trivial | exact hmem hm
  refine ⟨_, ⟨told o s, rfl⟩, ?_⟩
  rw [add_assoc]
  exact (h.touch (touches h hmay)).add (gained h.apart)

end Shares

/-- Threads that touch what they came by. -/
def sharing (P : Primitives) : Protocol StoreSig Error (Store P) (Multiset SegmentId) where
  exec := StoreOp.exec
  ok := fun _ _ => True
  may := Shares.may
  moves := Shares.moves
  Inv := Shares.Inv
  frame := fun _ => True
  step := fun _ hI hm _ => Shares.step hI hm

end Space
