import Space.Codec.Authenticated
import Space.Native.Rotation
import Space.Native.Staging

/-!
# Native — Integrity

Every encrypted segment of the log carries the tag of what its extent holds, under the key of its
version.  Nothing is asked of the commands: they may fail, and reference counts may saturate.

* `World.Guarded`: the invariant.  The extents in use end at a bound; between commands the bound is
  the offset of the next append, and during an asynchronous write it is the one its transaction
  began at.
* `Queued`: the pending segments of a transaction, which follow each other from the bound on.
* `wp_write_guarded`, `wp_writeAsync_guarded`, `wp_reconcile_guarded`: what the programs keep, and
  what a crash finds on disk wherever they are cut.
-/

namespace Space
open Support Prog

variable {P : Primitives} {K : UInt32 → XtsKeyPair} {bound bound' offset : Nat} {file : Bytes}
  {segment segment' : Segment} {w w' : World P}

/-- An encrypted segment has the tag of the bytes `raw` and of its own metadata, under the key of
its version. -/
def Segment.Authentic (P : Primitives) (K : UInt32 → XtsKeyPair) (segment : Segment)
    (raw : Bytes) : Prop :=
  segment.encrypted = true → ∃ v, segment.keyVersion = some v ∧
    segment.integrityTag =
      some (computeMac P raw (segment.encryptionMetadata raw) (K v).key1 (K v).key2)

/-- The extent of a segment ends at the bound, in the file, and holds what the tag is for. -/
structure Segment.Sits (P : Primitives) (K : UInt32 → XtsKeyPair) (file : Bytes) (bound : Nat)
    (segment : Segment) : Prop where
  inside : segment.len ≠ 0 → segment.offset + segment.len ≤ bound ∧
    segment.offset + segment.len ≤ file.length
  authentic : segment.Authentic P K (slice file segment.offset segment.len)

namespace Segment

theorem Authentic.of_clear {raw : Bytes} (h : segment.encrypted = false) :
    segment.Authentic P K raw := by
  intro he
  rw [h] at he
  cases he

/-- What the tag is for does not depend on the reference count. -/
theorem Authentic.congr {raw : Bytes} (h : segment.Authentic P K raw)
    (hf : segment'.form = segment.form) : segment'.Authentic P K raw := by
  intro he
  obtain ⟨v, hv, ht⟩ := h ((congrArg Segment.encrypted hf).symm.trans he)
  have hm : segment'.form.encryptionMetadata raw = segment.form.encryptionMetadata raw := by rw [hf]
  change segment'.encryptionMetadata raw = segment.encryptionMetadata raw at hm
  exact ⟨v, (congrArg Segment.keyVersion hf).trans hv,
    (congrArg Segment.integrityTag hf).trans (hm ▸ ht)⟩

theorem Sits.congr (h : segment.Sits P K file bound) (hf : segment'.form = segment.form)
    (ho : segment'.offset = segment.offset) : segment'.Sits P K file bound := by
  have hl : segment'.form.len = segment.form.len := by rw [hf]
  change segment'.len = segment.len at hl
  refine ⟨fun hne => ?_, ?_⟩
  · rw [hl] at hne
    rw [ho, hl]
    exact h.inside hne
  · rw [ho, hl]
    exact h.authentic.congr hf

theorem Sits.mono (h : segment.Sits P K file bound) (hb : bound ≤ bound') :
    segment.Sits P K file bound' :=
  ⟨fun hne => ⟨(h.inside hne).1.trans hb, (h.inside hne).2⟩, h.authentic⟩

/-- Every extent ends in the file. -/
theorem Sits.onFile (h : segment.Sits P K file bound) : segment.Sits P K file file.length :=
  ⟨fun hne => ⟨(h.inside hne).2, (h.inside hne).2⟩, h.authentic⟩

/-- A write behind the bound. -/
theorem Sits.writeAt {d : Bytes} (h : segment.Sits P K file bound) (ho : bound ≤ offset) :
    segment.Sits P K (writeAt 0 file offset d) bound := by
  refine ⟨fun hne => ?_, ?_⟩
  · obtain ⟨hb, hl⟩ := h.inside hne
    exact ⟨hb, hl.trans (length_le_writeAt _ _ _ _)⟩
  · by_cases hne : segment.len = 0
    · have ha := h.authentic
      rw [hne, slice_zero] at ha ⊢
      exact ha
    · obtain ⟨hb, hl⟩ := h.inside hne
      rw [slice_writeAt_disjoint hl (.inl (hb.trans ho))]
      exact h.authentic

/-- What was just written. -/
theorem Sits.written {d : Bytes} (ho : segment.offset = offset) (hl : segment.len = d.length)
    (ha : segment.Authentic P K d) :
    segment.Sits P K (Support.writeAt 0 file offset d) (offset + d.length) := by
  subst ho
  refine ⟨fun hne => ?_, ?_⟩
  · have hd : d ≠ [] := by
      intro hd
      rw [hd] at hl
      exact hne hl
    rw [hl]
    exact ⟨Nat.le_refl _, end_le_writeAt hd⟩
  · rw [hl, slice_writeAt_self]
    exact ha

end Segment

/-! ### Pending segments -/

/-- The pending segments follow each other, each with the tag of its payload. -/
def Queued (P : Primitives) (K : UInt32 → XtsKeyPair) : Nat → List PendingSegment → Nat → Prop
  | base, [], current => base = current
  | base, p :: l, current => p.segment.offset = base ∧ p.segment.len = p.data.length ∧
      p.segment.Authentic P K p.data ∧ Queued P K (base + p.data.length) l current

namespace Queued
variable {base current : Nat} {pending pending' : List PendingSegment} {p : PendingSegment}

theorem le (h : Queued P K base pending current) : base ≤ current := by
  induction pending generalizing base with
  | nil => exact Nat.le_of_eq h
  | cons p l ih => exact (Nat.le_add_right _ _).trans (ih h.2.2.2)

theorem snoc (h : Queued P K base pending current) (ho : p.segment.offset = current)
    (hl : p.segment.len = p.data.length) (ha : p.segment.Authentic P K p.data) :
    Queued P K base (pending ++ [p]) (current + p.data.length) := by
  induction pending generalizing base with
  | nil =>
      obtain rfl : base = current := h
      exact ⟨ho, hl, ha, rfl⟩
  | cons q l ih => exact ⟨h.1, h.2.1, h.2.2.1, ih h.2.2.2⟩

theorem take (h : Queued P K base pending current) (k : Nat) :
    ∃ current', Queued P K base (pending.take k) current' := by
  induction pending generalizing base k with
  | nil => exact ⟨base, by rw [List.take_nil]; rfl⟩
  | cons p l ih =>
      cases k with
      | zero => exact ⟨base, rfl⟩
      | succ k =>
          obtain ⟨current', h'⟩ := ih h.2.2.2 k
          exact ⟨current', h.1, h.2.1, h.2.2.1, h'⟩

theorem authentic (h : Queued P K base pending current) (hp : p ∈ pending) :
    p.segment.Authentic P K p.data := by
  induction pending generalizing base with
  | nil => cases hp
  | cons q l ih =>
      rcases List.mem_cons.mp hp with rfl | hp
      · exact h.2.2.1
      · exact ih h.2.2.2 hp

/-- A pending segment gets other metadata for the same payload. -/
theorem modify {x : SegmentId} {f : Segment → Segment} (h : Queued P K base pending current)
    (hm : NvramTransaction.modifyPending x f pending = some pending')
    (hf : ∀ p ∈ pending, p.segment.id = x → (f p.segment).offset = p.segment.offset ∧
      (f p.segment).len = p.segment.len ∧ (f p.segment).Authentic P K p.data) :
    Queued P K base pending' current := by
  induction pending generalizing base pending' with
  | nil => cases hm
  | cons p l ih =>
      obtain ⟨ho, hl, ha, ht⟩ := h
      rw [NvramTransaction.modifyPending] at hm
      by_cases hx : p.segment.id = x
      · rw [if_pos hx] at hm
        cases hm
        obtain ⟨ho', hl', ha'⟩ := hf p List.mem_cons_self hx
        exact ⟨ho'.trans ho, hl'.trans hl, ha', ht⟩
      · rw [if_neg hx] at hm
        obtain ⟨rest, hrest, rfl⟩ := Option.map_eq_some_iff.mp hm
        exact ⟨ho, hl, ha, ih ht hrest fun q hq => hf q (List.mem_cons_of_mem _ hq)⟩

/-- What was there stays, while the payloads are written. -/
theorem sits (h : Queued P K base pending current) (hs : segment.Sits P K file base) :
    segment.Sits P K (NvramTransaction.writePending pending file) current := by
  induction pending generalizing base file with
  | nil => exact hs.mono (Nat.le_of_eq h)
  | cons p l ih =>
      exact ih h.2.2.2 ((hs.writeAt (Nat.le_of_eq h.1.symm)).mono (Nat.le_add_right _ _))

/-- The payloads, once they are written. -/
theorem sits_mem (h : Queued P K base pending current) (hp : p ∈ pending) :
    p.segment.Sits P K (NvramTransaction.writePending pending file) current := by
  induction pending generalizing base file with
  | nil => cases hp
  | cons q l ih =>
      obtain ⟨ho, hl, ha, ht⟩ := h
      rcases List.mem_cons.mp hp with rfl | hp
      · have hw : p.segment.Sits P K (writeAt 0 file p.segment.offset p.data)
            (p.segment.offset + p.data.length) := .written rfl hl ha
        rw [ho] at hw
        show p.segment.Sits P K (NvramTransaction.writePending l
          (writeAt 0 file p.segment.offset p.data)) current
        rw [ho]
        exact ht.sits hw
      · exact ih ht hp

end Queued

/-- What is in the map once pending segments are installed. -/
theorem lookup_installPending_cases {pending : List PendingSegment}
    {m : Table SegmentId Segment} {x : SegmentId}
    (h : (NvramTransaction.installPending pending m).lookup x = some segment) :
    (∃ p ∈ pending, p.segment = segment) ∨ m.lookup x = some segment := by
  induction pending generalizing m with
  | nil => exact .inr h
  | cons p l ih =>
      rcases ih h with ⟨q, hq, e⟩ | h
      · exact .inl ⟨q, List.mem_cons_of_mem _ hq, e⟩
      · rcases Table.lookup_insert_eq_some.mp h with ⟨-, rfl⟩ | ⟨-, h⟩
        · exact .inl ⟨p, List.mem_cons_self, rfl⟩
        · exact .inr h

/-! ### The invariant -/

/-- Every extent ends at the bound and holds what its tag is for, and so on disk; all keys are
those of `K`. -/
structure World.Guarded (K : UInt32 → XtsKeyPair) (bound offset : Nat) (w : World P) : Prop where
  sits : ∀ x segment, w.seg x = some segment → segment.Sits P K w.file bound
  saved : w.store.nvram.savedMap.getD ∅ = w.store.nvram.segmentMap
  offset : w.store.nvram.nextOffset = offset
  keys : ∀ km, w.store.keyManager = some km → km.derive = K

namespace World

/-- What is on disk, for the next process. -/
def Durable (K : UInt32 → XtsKeyPair) (w : World P) : Prop :=
  ∃ bound offset, Guarded K bound offset w

/-- The processes that open the log have the keys `K`, if any. -/
theorem Durable.reopen {km : Option (KeyManager P)} (h : w.Durable K)
    (hk : ∀ km', km = some km' → km'.derive = K) :
    Guarded K (w.reopen km).file.length (w.reopen km).file.length (w.reopen km) := by
  obtain ⟨bound, offset, h⟩ := h
  refine ⟨fun x segment hx => ?_, rfl, rfl, hk⟩
  have hx' : w.seg x = some segment := by
    refine Eq.trans ?_ hx
    show w.store.nvram.segmentMap.lookup x = (w.store.nvram.savedMap.getD ∅).lookup x
    rw [h.saved]
  exact (h.sits x segment hx').onFile

/-- Nothing about the log changed, but the map. -/
theorem Guarded.map {m : Table SegmentId Segment} (h : w.Guarded K bound offset)
    (hn : w'.store.nvram = w.store.nvram.withMap m)
    (hk : w'.store.keyManager = w.store.keyManager)
    (hm : ∀ x segment, m.lookup x = some segment → segment.Sits P K w.file bound) :
    w'.Guarded K bound offset := by
  refine ⟨fun x segment hx => ?_, ?_, ?_, ?_⟩
  · have hx' : m.lookup x = some segment := by
      refine Eq.trans ?_ hx
      show _ = w'.store.nvram.segmentMap.lookup x
      rw [hn]
      rfl
    have hf : w'.file = w.file := by
      show w'.store.nvram.file = _
      rw [hn]
      rfl
    rw [hf]
    exact hm x segment hx'
  · rw [hn]; rfl
  · rw [hn]; exact h.offset
  · rw [hk]; exact h.keys

/-- Nothing about the log changed. -/
theorem Guarded.same (h : w.Guarded K bound offset) (hn : w'.store.nvram = w.store.nvram)
    (hk : ∀ km, w'.store.keyManager = some km → km.derive = K) : w'.Guarded K bound offset := by
  refine ⟨fun x segment hx => ?_, by rw [hn]; exact h.saved, by rw [hn]; exact h.offset, hk⟩
  have hx' : w.seg x = some segment := by
    refine Eq.trans ?_ hx
    show _ = w'.store.nvram.segmentMap.lookup x
    rw [hn]
    rfl
  have hf : w'.file = w.file := congrArg NvramLog.file hn
  rw [hf]
  exact h.sits x segment hx'

/-- Wherever the operation is cut, what is on disk can be read again. -/
def Cuttable (K : UInt32 → XtsKeyPair) (o : StoreOp) (w : World P) : Prop :=
  ∀ w', Crash o w w' → w'.Durable K

end World

/-! ### Operations that store nothing -/

theorem StoreOp.StoresNothing.cuttable {o : StoreOp} (ho : o.StoresNothing)
    (h : w.Guarded K bound offset) : w.Cuttable K o := by
  intro w' hc
  cases hc with
  | between => exact ⟨bound, offset, h⟩
  | append => exact ho.elim
  | commit => exact ho.elim

section
variable {data : Bytes}

theorem exec_increment_guarded (x : SegmentId) (h : w.Guarded K bound offset) :
    ((World.exec data (.incrementRefcount x) w).2).Guarded K bound offset := by
  cases hs : w.seg x with
  | none =>
      obtain ⟨e, he⟩ : ∃ e, World.exec data (.incrementRefcount x) w = (.error e, w) :=
        World.exec_increment_none hs
      rw [he]
      exact h
  | some s =>
      rw [World.exec_increment hs]
      refine h.map rfl rfl fun y s' hy => ?_
      rcases Table.lookup_insert_eq_some.mp hy with ⟨rfl, rfl⟩ | ⟨-, hy⟩
      · exact (h.sits y s hs).congr rfl rfl
      · exact h.sits y s' hy

theorem exec_decrement_guarded (x : SegmentId) (h : w.Guarded K bound offset) :
    ((World.exec data (.decrementRefcount x) w).2).Guarded K bound offset := by
  simp only [World.exec, StoreOp.exec, NvramLog.decrementRefcount]
  split
  · exact h.same rfl h.keys
  · next s hs =>
      split
      · exact h.same rfl h.keys
      · refine h.map rfl rfl fun y s' hy => ?_
        rcases Table.lookup_insert_eq_some.mp hy with ⟨rfl, rfl⟩ | ⟨-, hy⟩
        · exact (h.sits y s hs).congr rfl rfl
        · exact h.sits y s' hy

theorem exec_remove_guarded (x : SegmentId) (h : w.Guarded K bound offset) :
    ((World.exec data (.removeSegment x) w).2).Guarded K bound offset := by
  simp only [World.exec, StoreOp.exec, Store.onNvram, NvramLog.removeSegment]
  split
  · exact h.same rfl h.keys
  · refine h.map rfl rfl fun y s hy => ?_
    exact h.sits y s (Table.lookup_erase_eq_some.mp hy).2

/-- An operation that stores nothing keeps what is stored. -/
theorem StoreOp.StoresNothing.guarded {o : StoreOp} (ho : o.StoresNothing)
    (h : w.Guarded K bound offset) : ((World.exec data o w).2).Guarded K bound offset := by
  cases o with
  | append => exact ho.elim
  | updateSegmentMetadata => exact ho.elim
  | appendSegment => exact ho.elim
  | commit => exact ho.elim
  | rollback => exact ho.elim
  | incrementRefcount x => exact exec_increment_guarded x h
  | decrementRefcount x => exact exec_decrement_guarded x h
  | removeSegment x => exact exec_remove_guarded x h
  | currentKey =>
      refine h.same ?_ fun km' hk => ?_
      · exact w.store.currentKey_snd.2.1
      · have hk' : w.store.currentKey.2.keyManager = some km' := hk
        unfold Store.currentKey at hk'
        cases hkm : w.store.keyManager with
        | none =>
            rw [hkm] at hk'
            exact h.keys km' hk'
        | some km =>
            rw [hkm] at hk'
            cases hk'
            exact (km.getKey_derive _).trans (h.keys km hkm)
  | getKey keyVersion =>
      cases hkm : w.store.keyManager with
      | none =>
          simp only [World.exec, StoreOp.exec, Store.getKey, hkm]
          exact h.same rfl h.keys
      | some km =>
          cases keyVersion with
          | none =>
              simp only [World.exec, StoreOp.exec, Store.getKey, hkm]
              exact h.same rfl h.keys
          | some v =>
              simp only [World.exec, StoreOp.exec, Store.getKey, hkm]
              refine h.same rfl fun km' hk => ?_
              cases hk
              exact (km.getKey_derive v).trans (h.keys km hkm)
  | _ => exact h.same rfl h.keys

/-- A program of such operations. -/
theorem wp_storesNothing {α : Type} {p : Native α} (hp : p.Uses StoreOp.StoresNothing)
    (h : w.Guarded K bound offset) :
    p.wp (World.exec data).moves (fun o w => w.Cuttable K o)
      (fun _ w' => w'.Guarded K bound offset) w := by
  induction p generalizing w with
  | ret a => exact h
  | fail e => exact h
  | call o k ih =>
      refine ⟨hp.1.cuttable h, fun r w' hr => ih r (hp.2 r) ?_⟩
      have hw : (World.exec data o w).2 = w' := congrArg Prod.snd hr
      exact hw ▸ hp.1.guarded h

/-! ### Sealing -/

/-- The key is one of `K`. -/
def KeyOf (K : UInt32 → XtsKeyPair) (key : Option (UInt32 × XtsKeyPair)) : Prop :=
  ∀ v k, key = some (v, k) → k = K v

/-- **What is sealed is authentic**, on whatever segment it is described. -/
theorem sealView_authentic (hx : P.XtsInverse) {key : Option (UInt32 × XtsKeyPair)}
    {view payload : Bytes} {hash : ContentHash} {m : Option EncryptionMetadata}
    (hk : KeyOf K key) (h : sealView P key view hash = .ok (payload, m)) :
    payload.length = view.length ∧ ∀ x off n r hash',
      ((Segment.appended x off n).describe r hash' m).Authentic P K payload := by
  cases key with
  | none =>
      cases h
      exact ⟨rfl, fun _ _ _ _ _ => .of_clear rfl⟩
  | some vk =>
      obtain ⟨v, k⟩ := vk
      obtain rfl := hk v k rfl
      simp only [sealView, Bind.bind, Except.bind] at h
      split at h
      · cases h
      · next cm henc =>
          obtain ⟨c, m⟩ := cm
          cases h
          obtain ⟨h16, hc, hm⟩ := encryptSegment_ok henc
          refine ⟨by rw [hc, hx.length_encrypt _ _ _ _ h16], fun x off n r hash' _ => ⟨v, ?_, ?_⟩⟩
          · rw [hm]; rfl
          · rw [hm]; rfl

theorem wp_encryptionKey_guarded {policy : Policy} (h : w.Guarded K bound offset) :
    (WritePipeline.encryptionKey policy).wp (World.exec data).moves (fun o w => w.Cuttable K o)
      (fun r w' => w'.Guarded K bound offset ∧ w'.next = w.next ∧
        ∀ key, r = .ok key → KeyOf K key) w := by
  unfold WritePipeline.encryptionKey
  split
  · have ho : StoreOp.StoresNothing .currentKey := trivial
    refine World.wp_exec .currentKey (ho.cuttable h) ⟨ho.guarded h, ?_, ?_⟩
    · exact congrArg (fun reg : CapsuleRegistry => reg.nextSegmentId) w.store.currentKey_snd.1
    intro key hr v k hkey
    obtain rfl : w.store.currentKey.1 = key := Except.ok.inj hr
    unfold Store.currentKey at hkey
    cases hkm : w.store.keyManager with
    | none =>
        rw [hkm] at hkey
        cases hkey
    | some km =>
        rw [hkm] at hkey
        cases hkey
        rw [KeyManager.getKey_fst, h.keys km hkm]
  · refine ⟨h, rfl, fun key hr v k hkey => ?_⟩
    obtain rfl : none = key := Except.ok.inj hr
    cases hkey

/-! ### Storing a payload -/

theorem World.Guarded.append {x : SegmentId} {d : Bytes} (h : w.Guarded K bound offset)
    (hb : bound ≤ offset) (hd : d.length < 4294967296) :
    ((World.exec data (.append x d) w).2).Guarded K (offset + d.length) (offset + d.length) := by
  have hn : w.store.nvram.nextOffset = offset := h.offset
  refine ⟨fun y s hy => ?_, rfl, congrArg (· + d.length) hn, h.keys⟩
  show s.Sits P K (Support.writeAt 0 w.store.nvram.file w.store.nvram.nextOffset d) _
  rw [hn]
  rcases Table.lookup_insert_eq_some.mp hy with ⟨rfl, rfl⟩ | ⟨-, hy⟩
  · exact .written hn (asU32_of_lt hd) (.of_clear rfl)
  · exact ((h.sits y s hy).writeAt hb).mono (hb.trans (Nat.le_add_right _ _))

theorem World.Guarded.cut_append {x : SegmentId} {d : Bytes} (h : w.Guarded K bound offset)
    (hb : bound ≤ offset) : w.Cuttable K (.append x d) := by
  intro w' hc
  cases hc with
  | between => exact ⟨bound, offset, h⟩
  | append =>
      refine ⟨bound, offset, fun y s hy => (h.sits y s hy).writeAt ?_, h.saved, h.offset, h.keys⟩
      rw [h.offset]
      exact hb

theorem World.Guarded.update {x : SegmentId} (h : w.Guarded K bound offset)
    (hs : segment.Sits P K w.file bound) :
    ((World.exec data (.updateSegmentMetadata x segment) w).2).Guarded K bound offset := by
  refine h.map rfl rfl fun y s hy => ?_
  rcases Table.lookup_insert_eq_some.mp hy with ⟨rfl, rfl⟩ | ⟨-, hy⟩
  · exact hs
  · exact h.sits y s hy

theorem World.Guarded.cut_update {x : SegmentId} (h : w.Guarded K bound offset) :
    w.Cuttable K (.updateSegmentMetadata x segment) := by
  intro w' hc
  cases hc
  exact ⟨bound, offset, h⟩

/-- Between commands: the next append is where the extents in use end. -/
def World.Settled (K : UInt32 → XtsKeyPair) (w : World P) : Prop := ∃ n, w.Guarded K n n

theorem wp_storeNew_guarded {payload : Bytes} {r : CompressionResult} {hash : Option ContentHash}
    {m : Option EncryptionMetadata} (h : w.Settled K) (hl : payload.length < 4294967296)
    (ha : ∀ x off n, ((Segment.appended x off n).describe r hash m).Authentic P K payload) :
    (WritePipeline.storeNew payload r hash m).wp (World.exec data).moves
      (fun o w => w.Cuttable K o) (fun _ w' => w'.Settled K) w := by
  obtain ⟨n, h⟩ := h
  unfold WritePipeline.storeNew
  have ho : StoreOp.StoresNothing .allocSegment := trivial
  refine wp_bind.mpr (World.wp_exec .allocSegment (ho.cuttable h) ?_)
  set x : SegmentId := ⟨w.next⟩ with hx
  set w₁ : World P := (World.exec data .allocSegment w).2 with hw₁
  have h₁ : w₁.Guarded K n n := ho.guarded h
  show andThen _ _ _ _ (.ok x) w₁
  refine wp_bind.mpr (wp_mapError.mpr
    (World.wp_exec (.append x payload) (h₁.cut_append (Nat.le_refl n)) ?_))
  set w₂ : World P := (World.exec data (.append x payload) w₁).2 with hw₂
  have h₂ : w₂.Guarded K (n + payload.length) (n + payload.length) := h₁.append (Nat.le_refl n) hl
  show andThen _ _ _ _ (.ok (Segment.appended x w₁.store.nvram.nextOffset
    (asU32 payload.length))) w₂
  refine wp_bind.mpr (wp_mapError.mpr
    (World.wp_exec (.updateSegmentMetadata x _) h₂.cut_update ?_))
  refine ⟨_, h₂.update ?_⟩
  have hf : w₂.file = writeAt 0 w₁.store.nvram.file n payload := by
    rw [← h₁.offset]
    rfl
  rw [hf]
  refine .written ?_ ?_ (ha _ _ _)
  · rw [describe_offset]
    exact h₁.offset
  · rw [describe_len]
    exact asU32_of_lt hl

theorem wp_writeChunk_guarded (hx : P.XtsInverse) {policy : Policy} {st : WriteState}
    {chunk : Bytes × Nat} (h : w.Settled K) (hc : chunk.1.length ≤ SEGMENT_SIZE) :
    (WritePipeline.writeChunk P policy st chunk).wp (World.exec data).moves
      (fun o w => w.Cuttable K o) (fun _ w' => w'.Settled K) w := by
  unfold WritePipeline.writeChunk
  refine wp_bind.mpr (wp_lift.mpr ?_)
  cases hcomp : compressSegment P chunk.1 policy.compression with
  | error e => exact h
  | ok vr =>
  obtain ⟨view, r⟩ := vr
  obtain ⟨n, hn⟩ := h
  refine wp_bind.mpr (wp_mono (wp_encryptionKey_guarded hn) fun res w₁ => ?_)
  rintro ⟨h₁, -, hkey⟩
  cases res with
  | error e => exact ⟨n, h₁⟩
  | ok key =>
  refine wp_bind.mpr (wp_lift.mpr ?_)
  cases hseal : sealView P key view (hashContent P view) with
  | error e => exact ⟨n, h₁⟩
  | ok pm =>
  obtain ⟨payload, m⟩ := pm
  obtain ⟨hl, ha⟩ := sealView_authentic hx (hkey key rfl) hseal
  have hshort : payload.length < 4294967296 := by
    rw [hl]
    exact Nat.lt_of_le_of_lt ((compressSegment_length hcomp).trans hc) (by decide)
  have hstore (hash : Option ContentHash) :
      (WritePipeline.storeNew payload r hash m).wp (World.exec data).moves
        (fun o w => w.Cuttable K o) (fun _ w' => w'.Settled K) w₁ :=
    wp_storeNew_guarded ⟨n, h₁⟩ hshort fun x off n => ha x off n r hash
  show Prog.wp _ _ _ (if policy.dedupe = true then _ else _) w₁
  split
  · have ho : StoreOp.StoresNothing (.lookupContent (hashContent P view)) := trivial
    refine wp_bind.mpr (World.wp_exec (.lookupContent (hashContent P view)) (ho.cuttable h₁) ?_)
    show andThen _ _ _ _ (.ok (w₁.content (hashContent P view))) w₁
    cases w₁.content (hashContent P view) with
    | some x =>
        have hi : StoreOp.StoresNothing (.incrementRefcount x) := trivial
        refine wp_bind.mpr (wp_mapError.mpr
          (World.wp_exec (.incrementRefcount x) (hi.cuttable h₁) ?_))
        have h₂ : ((World.exec data (.incrementRefcount x) w₁).2).Guarded K n n := hi.guarded h₁
        cases (World.exec data (.incrementRefcount x) w₁).1 with
        | ok s => exact ⟨n, h₂⟩
        | error e => exact ⟨n, h₂⟩
    | none =>
        refine wp_bind.mpr (wp_mono (hstore _) fun res w₂ h₂ => ?_)
        cases res with
        | error e => exact h₂
        | ok x =>
            obtain ⟨n', h₂⟩ := h₂
            have hr : StoreOp.StoresNothing (.registerContent (hashContent P view) x) := trivial
            refine wp_bind.mpr (wp_mapError.mpr
              (World.wp_exec (.registerContent (hashContent P view) x) (hr.cuttable h₂) ?_))
            exact ⟨n', hr.guarded h₂⟩
  · refine wp_bind.mpr (wp_mono (hstore _) fun res w₂ h₂ => ?_)
    cases res with
    | error e => exact h₂
    | ok x => exact h₂

theorem wp_writeCapsule_guarded (hx : P.XtsInverse) {id : CapsuleId} {policy : Policy}
    (h : w.Settled K) :
    (WritePipeline.writeCapsuleWithPolicy P id data policy).wp (World.exec data).moves
      (fun o w => w.Cuttable K o) (fun _ w' => w'.Settled K) w := by
  unfold WritePipeline.writeCapsuleWithPolicy
  refine wp_bind.mpr (wp_foldlM (fun rest _ w' => w'.Settled K ∧
    ∀ c ∈ rest, c.1 ∈ chunks SEGMENT_SIZE data) ?_ ?_ _ _ _ ⟨h, fun c hc => ?_⟩)
  · rintro chunk rest st w' ⟨h, hmem⟩
    have hc := (chunks_mem SEGMENT_SIZE_pos (hmem chunk List.mem_cons_self)).2
    refine wp_mono (wp_writeChunk_guarded hx h hc) fun r w'' h'' => ?_
    cases r with
    | error e => exact h''
    | ok st' => exact ⟨h'', fun c hc => hmem c (List.mem_cons_of_mem _ hc)⟩
  · rintro st w' ⟨⟨n, h⟩, -⟩
    have hcreate : (do
        (Native.createCapsuleWithSegments id data.length st.segmentIds policy).mapError
          (mapRegistryError "create_capsule_with_segments")
        return id : Native CapsuleId).Uses StoreOp.StoresNothing :=
      uses_bind (uses_mapError.mpr (uses_op trivial)) fun _ => trivial
    have huses : Prog.Uses StoreOp.StoresNothing (do
        if 0 < st.dedupStats.bytesSaved then
          (Native.addDedupedBytes id st.dedupStats.bytesSaved).mapError
            (mapRegistryError "add_deduped_bytes")
        (Native.createCapsuleWithSegments id data.length st.segmentIds policy).mapError
          (mapRegistryError "create_capsule_with_segments")
        return id : Native CapsuleId) := by
      show Prog.Uses _ (if 0 < st.dedupStats.bytesSaved then _ else _)
      split
      · exact uses_bind (uses_mapError.mpr (uses_op trivial)) fun _ => hcreate
      · exact hcreate
    exact wp_mono (wp_storesNothing huses h) fun _ _ h => ⟨n, h⟩
  · obtain ⟨chunk, index⟩ := c
    exact List.fst_mem_of_mem_zipIdx hc

/-! ### The asynchronous write -/

/-- A transaction that began at `base`, and the state it is staged in. -/
structure NvramTransaction.Stages (t : NvramTransaction) (P : Primitives)
    (K : UInt32 → XtsKeyPair) (base next : Nat) : Prop where
  active : t.finalized = false
  begins : t.baseOffset = base
  queued : Queued P K base t.pending t.currentOffset
  ids : ∀ p ∈ t.pending, p.segment.id.val < next

/-- A prepared chunk, ready to be described on any segment. -/
structure SegmentPrepared.Ready (p : SegmentPrepared) (P : Primitives)
    (K : UInt32 → XtsKeyPair) : Prop where
  short : p.finalData.length < 4294967296
  authentic : ∀ x off n r hash,
    ((Segment.appended x off n).describe r hash p.encryptionMeta).Authentic P K p.finalData

theorem wp_prepareSegment_guarded (hx : P.XtsInverse) {policy : Policy} {chunk : Bytes × Nat}
    (h : w.Guarded K bound offset) (hc : chunk.1.length ≤ SEGMENT_SIZE) :
    (WritePipeline.prepareSegment P policy chunk).wp (World.exec data).moves
      (fun o w => w.Cuttable K o) (fun r w' => w'.Guarded K bound offset ∧ w'.next = w.next ∧
        ∀ p, r = .ok p → p.Ready P K) w := by
  unfold WritePipeline.prepareSegment
  refine wp_bind.mpr (wp_lift.mpr ?_)
  cases hcomp : compressSegment P chunk.1 policy.compression with
  | error e => exact ⟨h, rfl, fun _ hr => by cases hr⟩
  | ok vr =>
  obtain ⟨view, r⟩ := vr
  refine wp_bind.mpr (wp_mono (wp_encryptionKey_guarded h) fun res w₁ => ?_)
  rintro ⟨h₁, hn, hkey⟩
  cases res with
  | error e => exact ⟨h₁, hn, fun _ hr => by cases hr⟩
  | ok key =>
  refine wp_bind.mpr (wp_lift.mpr ?_)
  cases hseal : sealView P key view (hashContent P view) with
  | error e => exact ⟨h₁, hn, fun _ hr => by cases hr⟩
  | ok pm =>
  obtain ⟨payload, m⟩ := pm
  obtain ⟨hl, ha⟩ := sealView_authentic hx (hkey key rfl) hseal
  refine ⟨h₁, hn, fun p hr => ?_⟩
  obtain rfl := Except.ok.inj hr
  exact ⟨hl ▸ Nat.lt_of_le_of_lt ((compressSegment_length hcomp).trans hc) (by decide), ha⟩

/-- What committing a chunk leaves: the transaction it returns, if it does. -/
def AfterChunk (P : Primitives) (K : UInt32 → XtsKeyPair) (base : Nat)
    (r : Except Error (CommitOutcome × NvramTransaction × Table ContentHash SegmentId))
    (w : World P) : Prop :=
  match r with
  | .ok (_, t, _) => w.Guarded K base t.currentOffset ∧ t.Stages P K base w.next
  | .error _ => ∃ offset, w.Guarded K base offset

theorem wp_stageNew_guarded {base : Nat} {policy : Policy} {p : SegmentPrepared}
    {t : NvramTransaction} {staged : Table ContentHash SegmentId}
    (h : w.Guarded K base t.currentOffset) (ht : t.Stages P K base w.next) (hp : p.Ready P K) :
    (WritePipeline.stageNew policy p t staged).wp (World.exec data).moves
      (fun o w => w.Cuttable K o) (AfterChunk P K base) w := by
  unfold WritePipeline.stageNew
  have ho : StoreOp.StoresNothing .allocSegment := trivial
  refine wp_bind.mpr (World.wp_exec .allocSegment (ho.cuttable h) ?_)
  set x : SegmentId := ⟨w.next⟩ with hx
  set w₁ : World P := (World.exec data .allocSegment w).2 with hw₁
  have h₁ : w₁.Guarded K base t.currentOffset := ho.guarded h
  show andThen _ _ _ _ (.ok x) w₁
  set q : PendingSegment :=
    ⟨Segment.appended x t.currentOffset (asU32 p.finalData.length), p.finalData⟩ with hq
  set t₁ : NvramTransaction := { t with
    pending := t.pending ++ [q], currentOffset := t.currentOffset + p.finalData.length } with ht₁
  have hcut : w₁.Cuttable K (.appendSegment t x p.finalData) := by
    intro w' hc
    cases hc
    exact ⟨_, _, h₁⟩
  refine wp_bind.mpr (World.wp_exec (.appendSegment t x p.finalData) hcut ?_)
  have happ : t.appendSegment x p.finalData w₁.store.nvram = (.ok (q.segment, t₁),
      { w₁.store.nvram with nextOffset := t₁.currentOffset }) := by
    have hact : t.ensureActive = .ok () := if_neg (by rw [ht.active]; exact Bool.false_ne_true)
    unfold NvramTransaction.appendSegment
    rw [hact]
  have hexec : World.exec data (.appendSegment t x p.finalData) w₁ = (.ok (q.segment, t₁),
      w₁.setNvram { w₁.store.nvram with nextOffset := t₁.currentOffset }) := by
    simp only [World.exec, StoreOp.exec, happ]
    rfl
  rw [hexec]
  refine wp_bind.mpr (wp_lift.mpr ?_)
  -- the identifier is new to the transaction, so its metadata goes to the last pending segment
  have hnew : ∀ r ∈ t.pending, r.segment.id ≠ x := by
    intro r hr e
    have hlt := ht.ids r hr
    rw [e] at hlt
    exact Nat.lt_irrefl _ hlt
  have hset := withSegmentMut_first (t := t₁) (x := x) (p := q) (a := t.pending) (b := [])
    (f := fun _ => q.segment.describe p.compResult
      (if policy.dedupe = true then some p.contentHash else none) p.encryptionMeta)
    ht.active rfl rfl hnew
  rw [NvramTransaction.setSegmentMetadata, hset]
  refine ⟨⟨h₁.sits, h₁.saved, rfl, h₁.keys⟩, ht.active, ht.begins, ht.queued.snoc ?_ ?_ ?_, ?_⟩
  · exact describe_offset
  · exact describe_len.trans (asU32_of_lt hp.short)
  · exact hp.authentic _ _ _ _ _
  · intro r hr
    rcases List.mem_append.mp hr with hr | hr
    · exact Nat.lt_succ_of_lt (ht.ids r hr)
    · obtain rfl := List.mem_singleton.mp hr
      show (q.segment.describe _ _ _).id.val < w.next + 1
      rw [describe_id]
      exact Nat.lt_succ_self _

theorem wp_commitSegment_guarded {base : Nat} {policy : Policy} {p : SegmentPrepared}
    {t : NvramTransaction} {staged : Table ContentHash SegmentId}
    (h : w.Guarded K base t.currentOffset) (ht : t.Stages P K base w.next) (hp : p.Ready P K) :
    (WritePipeline.commitSegment policy p t staged).wp (World.exec data).moves
      (fun o w => w.Cuttable K o) (AfterChunk P K base) w := by
  have hstage : (WritePipeline.stageNew policy p t staged).wp (World.exec data).moves
      (fun o w => w.Cuttable K o) (AfterChunk P K base) w := wp_stageNew_guarded h ht hp
  unfold WritePipeline.commitSegment
  by_cases hd : policy.dedupe = true
  · rw [if_pos hd]
    cases hs : staged.lookup p.contentHash with
    | some x =>
        dsimp only
        cases hf : t.pendingSegment x with
        | none => exact ⟨_, h⟩
        | some pending =>
            refine wp_bind.mpr (wp_lift.mpr ?_)
            obtain ⟨q, hq, -⟩ := Option.map_eq_some_iff.mp hf
            obtain ⟨a, q, b, hab, hqx, ha⟩ := exists_first (l := t.pending) (x := x)
              ⟨q, List.mem_of_find?_eq_some hq, by simpa using List.find?_some hq⟩
            rw [withSegmentMut_first ht.active hab hqx ha]
            refine ⟨h, ht.active, ht.begins, ?_, ?_⟩
            · refine ht.queued.modify (x := x) (f := Segment.reuse) ?_ fun r hr _ => ?_
              · rw [hab]
                exact modifyPending_first hqx ha
              · exact ⟨rfl, rfl, (ht.queued.authentic hr).congr rfl⟩
            · intro r hr
              have hold := ht.ids
              rw [hab] at hold
              rcases List.mem_append.mp hr with hr | hr
              · exact hold r (List.mem_append_left _ hr)
              · rcases List.mem_cons.mp hr with rfl | hr
                · exact hold q (List.mem_append_right _ List.mem_cons_self)
                · exact hold r (List.mem_append_right _ (List.mem_cons_of_mem _ hr))
    | none =>
        have ho : StoreOp.StoresNothing (.lookupContent p.contentHash) := trivial
        refine wp_bind.mpr (World.wp_exec (.lookupContent p.contentHash) (ho.cuttable h) ?_)
        show andThen _ _ _ _ (.ok (w.content p.contentHash)) w
        cases w.content p.contentHash with
        | none => exact hstage
        | some x =>
            have hi : StoreOp.StoresNothing (.incrementRefcount x) := trivial
            refine wp_bind.mpr (World.wp_exec (.incrementRefcount x) (hi.cuttable h) ?_)
            have h₂ : ((World.exec data (.incrementRefcount x) w).2).Guarded K base
                t.currentOffset := hi.guarded h
            cases (World.exec data (.incrementRefcount x) w).1 with
            | ok s => exact ⟨h₂, ht⟩
            | error e => exact ⟨_, h₂⟩
  · rw [if_neg hd]
    exact hstage

/-- Between two arrivals.  Until committing has failed, the log and the transaction go together. -/
structure AsyncState.Coordinates (st : AsyncState) (P : Primitives) (K : UInt32 → XtsKeyPair)
    (base : Nat) (w : World P) : Prop where
  active : st.transaction.finalized = false
  begins : st.transaction.baseOffset = base
  world : ∃ offset, w.Guarded K base offset ∧ (st.commitError = none →
    offset = st.transaction.currentOffset ∧ st.transaction.Stages P K base w.next)
  ready : ∀ i p, st.ordered.lookup i = some p → p.Ready P K

theorem wp_drain_guarded {base : Nat} {policy : Policy} :
    ∀ (n : Nat) {st : AsyncState} {w : World P}, st.Coordinates P K base w →
      st.commitError = none →
      (WritePipeline.drain policy n st).wp (World.exec data).moves (fun o w => w.Cuttable K o)
        (fun r w' => ∃ st', r = .ok st' ∧ st'.Coordinates P K base w') w
  | 0, st, w, h, _ => ⟨st, rfl, h⟩
  | n + 1, st, w, h, he => by
      unfold WritePipeline.drain
      cases hp : st.ordered.lookup st.nextIndex with
      | none => exact ⟨st, rfl, h⟩
      | some p =>
          obtain ⟨offset, hw, hgo⟩ := h.world
          obtain ⟨rfl, ht⟩ := hgo he
          refine wp_bind.mpr (wp_attempt.mpr (wp_mono
            (wp_commitSegment_guarded hw ht (h.ready _ p hp)) fun r w' hr => ?_))
          cases r with
          | error e =>
              obtain ⟨offset, hw'⟩ := hr
              exact ⟨_, rfl, h.active, h.begins, ⟨offset, hw', fun k => by cases k⟩, h.ready⟩
          | ok o =>
              obtain ⟨outcome, t, staged⟩ := o
              obtain ⟨hw', ht'⟩ := hr
              exact wp_drain_guarded n
                ⟨ht'.active, ht'.begins, ⟨_, hw', fun _ => ⟨rfl, ht'⟩⟩, h.ready⟩ he

theorem wp_arrive_guarded (hx : P.XtsInverse) {base total : Nat} {policy : Policy}
    {st : AsyncState} {chunk : Bytes × Nat} (h : st.Coordinates P K base w)
    (hc : chunk.1.length ≤ SEGMENT_SIZE) :
    (WritePipeline.arrive P policy total st chunk).wp (World.exec data).moves
      (fun o w => w.Cuttable K o)
      (fun r w' => ∃ st', r = .ok st' ∧ st'.Coordinates P K base w') w := by
  unfold WritePipeline.arrive
  obtain ⟨offset, hw, hgo⟩ := h.world
  refine wp_bind.mpr (wp_attempt.mpr (wp_mono (wp_prepareSegment_guarded hx hw hc)
    fun r w' hr => ?_))
  obtain ⟨hw', hn, hready⟩ := hr
  rw [← hn] at hgo
  cases r with
  | error e =>
      exact ⟨_, rfl, h.active, h.begins, ⟨offset, hw', hgo⟩, h.ready⟩
  | ok p =>
      show Prog.wp _ _ _ (if st.commitError.isSome = true then _ else _) w'
      by_cases he : st.commitError.isSome = true
      · rw [if_pos he]
        exact ⟨_, rfl, h.active, h.begins, ⟨offset, hw', hgo⟩, h.ready⟩
      · rw [if_neg he]
        refine wp_drain_guarded total ⟨h.active, h.begins, ⟨offset, hw', hgo⟩, ?_⟩
          (Option.not_isSome_iff_eq_none.mp he)
        intro i q hq
        rcases Table.lookup_insert_eq_some.mp hq with ⟨-, rfl⟩ | ⟨-, hq⟩
        · exact hready _ rfl
        · exact h.ready i q hq

/-! ### Ending the transaction -/

theorem World.Guarded.rollback {base : Nat} {t : NvramTransaction} (h : w.Guarded K base offset)
    (hf : t.finalized = false) (hb : t.baseOffset = base) :
    ((World.exec data (.rollback t) w).2).Guarded K base base := by
  have hroll : (t.rollback w.store.nvram).2 = { w.store.nvram with nextOffset := base } := by
    unfold NvramTransaction.rollback
    rw [if_neg (by rw [hf]; exact Bool.false_ne_true), hb]
  have hn : (World.exec data (.rollback t) w).2.store.nvram =
      { w.store.nvram with nextOffset := base } := hroll
  have hseg : ∀ x, (World.exec data (.rollback t) w).2.seg x = w.seg x := by
    intro x
    show (World.exec data (.rollback t) w).2.store.nvram.segmentMap.lookup x = _
    rw [hn]
    rfl
  have hfile : (World.exec data (.rollback t) w).2.file = w.file := by
    show (World.exec data (.rollback t) w).2.store.nvram.file = _
    rw [hn]
    rfl
  refine ⟨fun x segment hx => ?_, by rw [hn]; exact h.saved, by rw [hn], h.keys⟩
  rw [hfile]
  exact h.sits x segment ((hseg x).symm.trans hx)

theorem World.Guarded.cut_rollback {t : NvramTransaction} (h : w.Guarded K bound offset) :
    w.Cuttable K (.rollback t) := by
  intro w' hc
  cases hc
  exact ⟨bound, offset, h⟩

theorem World.Guarded.commit {base : Nat} {t : NvramTransaction}
    (h : w.Guarded K base t.currentOffset) (ht : t.Stages P K base w.next) :
    ((World.exec data (.commit t) w).2).Settled K := by
  have hf : ¬ t.finalized = true := by rw [ht.active]; exact Bool.false_ne_true
  have hq := ht.queued
  by_cases hnil : t.pending = []
  · -- nothing was staged, so the log ends where the transaction began
    have hn : (World.exec data (.commit t) w).2.store.nvram = w.store.nvram := by
      show (t.commit w.store.nvram).2 = _
      unfold NvramTransaction.commit
      rw [if_neg hf, if_pos hnil]
    rw [hnil] at hq
    obtain rfl : base = t.currentOffset := hq
    exact ⟨_, h.same hn h.keys⟩
  · have hn : (World.exec data (.commit t) w).2.store.nvram =
        ({ w.store.nvram with
          file := NvramTransaction.writePending t.pending w.store.nvram.file
          nextOffset := t.currentOffset } : NvramLog).withMap
            (NvramTransaction.installPending t.pending w.store.nvram.segmentMap) := by
      show (t.commit w.store.nvram).2 = _
      unfold NvramTransaction.commit
      rw [if_neg hf, if_neg hnil]
    refine ⟨t.currentOffset, fun x segment hx => ?_, by rw [hn]; rfl, by rw [hn]; rfl, h.keys⟩
    have hx' : (NvramTransaction.installPending t.pending w.store.nvram.segmentMap).lookup x =
        some segment := by
      refine Eq.trans ?_ hx
      show _ = (World.exec data (.commit t) w).2.store.nvram.segmentMap.lookup x
      rw [hn]
      rfl
    have hfile : (World.exec data (.commit t) w).2.file =
        NvramTransaction.writePending t.pending w.store.nvram.file := congrArg NvramLog.file hn
    rw [hfile]
    rcases lookup_installPending_cases hx' with ⟨p, hp, rfl⟩ | hx'
    · exact hq.sits_mem hp
    · exact hq.sits (h.sits x segment hx')

theorem World.Guarded.cut_commit {base : Nat} {t : NvramTransaction}
    (h : w.Guarded K base offset) (hq : Queued P K base t.pending t.currentOffset) :
    w.Cuttable K (.commit t) := by
  intro w' hc
  cases hc with
  | between => exact ⟨base, offset, h⟩
  | commit t k =>
      obtain ⟨current, hk⟩ := hq.take k
      exact ⟨current, offset, fun x segment hx => hk.sits (h.sits x segment hx), h.saved,
        h.offset, h.keys⟩

theorem wp_finishAsync_guarded {base size total : Nat} {id : CapsuleId} {policy : Policy}
    {st : AsyncState} (h : st.Coordinates P K base w) :
    (WritePipeline.finishAsync id size policy total st).wp (World.exec data).moves
      (fun o w => w.Cuttable K o) (fun _ w' => w'.Settled K) w := by
  obtain ⟨offset, hw, hgo⟩ := h.world
  have hfree {α : Type} {p : Native α} (hp : p.Uses StoreOp.StoresNothing) {w' : World P}
      (hw' : w'.Settled K) : p.wp (World.exec data).moves (fun o w => w.Cuttable K o)
        (fun _ w'' => w''.Settled K) w' := by
    obtain ⟨n, hw'⟩ := hw'
    exact wp_mono (wp_storesNothing hp hw') fun _ _ k => ⟨n, k⟩
  have hend : WritePipeline.Finishes StoreOp.StoresNothing id size policy st :=
    ⟨fun _ _ => trivial, fun _ _ => trivial, fun _ _ => trivial, fun _ _ => trivial, trivial,
      trivial⟩
  unfold WritePipeline.finishAsync
  cases he : WritePipeline.AsyncState.error st total with
  | some e =>
      dsimp only
      refine wp_bind.mpr (wp_discard.mpr (World.wp_exec (.rollback st.transaction)
        hw.cut_rollback ?_))
      refine hfree (uses_bind (WritePipeline.uses_releaseIncrements hend.decrement) fun _ => ?_)
        ⟨base, hw.rollback h.active h.begins⟩
      trivial
  | none =>
      dsimp only
      obtain ⟨hcommit, -⟩ := WritePipeline.AsyncState.error_eq_none he
      obtain ⟨rfl, ht⟩ := hgo hcommit
      refine wp_bind.mpr (wp_attempt.mpr (World.wp_exec (.commit st.transaction)
        (hw.cut_commit ht.queued) ?_))
      exact hfree hend.uses_registered (hw.commit ht)

theorem wp_writeAsync_guarded (hx : P.XtsInverse) {limit : Nat} {arrivals : Order (Bytes × Nat)}
    {id : CapsuleId} {policy : Policy} (h : w.Settled K) :
    (WritePipeline.writeCapsuleWithPolicyAsync P limit arrivals id data policy).wp
      (World.exec data).moves (fun o w => w.Cuttable K o) (fun _ w' => w'.Settled K) w := by
  obtain ⟨n, h⟩ := h
  show Prog.wp _ _ _ (if (chunks SEGMENT_SIZE data).zipIdx.length = 0 then _ else _) w
  split
  · have hcreate : ((Native.createCapsuleWithSegments id 0 [] policy).mapError
        (mapRegistryError "create_capsule_with_segments") >>= fun _ =>
          (pure id : Native CapsuleId)).Uses StoreOp.StoresNothing :=
      uses_bind (uses_mapError.mpr (uses_op trivial)) fun _ => trivial
    exact wp_mono (wp_storesNothing hcreate h) fun _ _ k => ⟨n, k⟩
  · have ho : StoreOp.StoresNothing .beginTransaction := trivial
    refine wp_bind.mpr (World.wp_exec .beginTransaction (ho.cuttable h) ?_)
    set t : NvramTransaction := w.store.nvram.beginTransaction with ht
    show andThen _ _ _ _ (.ok t) w
    rw [andThen_ok]
    have hbase : w.store.nvram.nextOffset = n := h.offset
    have hst : ({ transaction := t } : AsyncState).Coordinates P K n w :=
      ⟨rfl, hbase, ⟨n, h, fun _ => ⟨hbase.symm, rfl, hbase, hbase.symm,
        fun p hp => absurd hp List.not_mem_nil⟩⟩, fun _ _ hp => by cases hp⟩
    split
    · refine wp_bind.mpr (wp_discard.mpr (World.wp_exec (.rollback t) h.cut_rollback ?_))
      exact ⟨n, h.rollback rfl hbase⟩
    · refine wp_bind.mpr (wp_foldlM (fun rest st w' => st.Coordinates P K n w' ∧
        ∀ c ∈ rest, c.1 ∈ chunks SEGMENT_SIZE data) ?_ ?_ _ _ _ ⟨hst, fun c hc => ?_⟩)
      · rintro chunk rest st w' ⟨hst, hmem⟩
        have hc := (chunks_mem SEGMENT_SIZE_pos (hmem chunk List.mem_cons_self)).2
        refine wp_mono (wp_arrive_guarded hx hst hc) fun r w'' hr => ?_
        obtain ⟨st', rfl, hst'⟩ := hr
        exact ⟨hst', fun c hc => hmem c (List.mem_cons_of_mem _ hc)⟩
      · rintro st w' ⟨hst, -⟩
        exact wp_finishAsync_guarded hst
      · obtain ⟨chunk, index⟩ := c
        exact List.fst_mem_of_mem_zipIdx ((arrivals.perm _).mem_iff.mp hc)

/-! ### Reconciliation -/

theorem wp_reconcile_guarded {capsuleOrd : Order CapsuleId} {segmentOrd sweepOrd : Order Segment}
    (h : w.Settled K) :
    (WritePipeline.reconcileRefcounts capsuleOrd segmentOrd sweepOrd).wp (World.exec data).moves
      (fun o w => w.Cuttable K o) (fun _ w' => w'.Settled K) w := by
  obtain ⟨n, h⟩ := h
  unfold WritePipeline.reconcileRefcounts
  have ho : StoreOp.StoresNothing (.listCapsules capsuleOrd) := trivial
  refine wp_bind.mpr (World.wp_exec (.listCapsules capsuleOrd) (ho.cuttable h) ?_)
  show andThen _ _ _ _ (.ok (w.store.registry.listCapsules capsuleOrd)) w
  have hcount (ids : List CapsuleId) :
      (WritePipeline.countReferences ids).Uses StoreOp.StoresNothing := by
    refine uses_foldlM (fun counts id => uses_bind (uses_attempt (uses_op trivial)) fun r => ?_) _ _
    cases r <;> trivial
  refine wp_bind.mpr (wp_mono (wp_storesNothing (hcount _) h) fun r w₁ h₁ => ?_)
  cases r with
  | error e => exact ⟨n, h₁⟩
  | ok counts =>
  have hl : StoreOp.StoresNothing (.listSegments segmentOrd) := trivial
  refine wp_bind.mpr (World.wp_exec (.listSegments segmentOrd) (hl.cuttable h₁) ?_)
  show andThen _ _ _ _ (.ok (w₁.store.nvram.listSegments segmentOrd)) w₁
  refine wp_bind.mpr (wp_foldlM (fun rest _ w' => w'.Guarded K n n ∧
    ∀ s ∈ rest, s.Sits P K w'.file n) ?_ ?_ _ _ _ ⟨h₁, fun s hs => ?_⟩)
  · rintro s rest _ w' ⟨hw', hrest⟩
    have hs := hrest s List.mem_cons_self
    have htail : ∀ s ∈ rest, s.Sits P K w'.file n := fun t ht =>
      hrest t (List.mem_cons_of_mem _ ht)
    unfold WritePipeline.reconcileSegment
    dsimp only
    split
    · refine World.wp_exec (.updateSegmentMetadata s.id _) hw'.cut_update ?_
      exact ⟨hw'.update (hs.congr rfl rfl), htail⟩
    · exact ⟨hw', htail⟩
  · rintro _ w' ⟨hw', -⟩
    have hsweep := uses_discard (uses_sweep (A := StoreOp.StoresNothing) (fun _ => trivial)
      (fun _ _ => trivial) (fun _ => trivial) sweepOrd)
    exact wp_mono (wp_storesNothing hsweep hw') fun _ _ k => ⟨n, k⟩
  · obtain ⟨x, hx⟩ := Table.mem_values.mp ((segmentOrd.perm _).mem_iff.mp hs)
    exact h₁.sits x s hx

/-- **A command keeps what is stored**, and leaves it readable wherever it is cut. -/
theorem Command.wp_guarded (hx : P.XtsInverse) {c : Command} (h : w.Settled K) :
    (c.program P).wp (World.exec c.data).moves (fun o w => w.Cuttable K o)
      (fun _ w' => w'.Settled K) w := by
  have hfree {p : Native Unit} (hp : p.Uses StoreOp.StoresNothing) :
      p.wp (World.exec c.data).moves (fun o w => w.Cuttable K o)
        (fun _ w' => w'.Settled K) w := by
    obtain ⟨n, h⟩ := h
    exact wp_mono (wp_storesNothing hp h) fun _ _ k => ⟨n, k⟩
  cases c with
  | write id data policy =>
      exact wp_discard.mpr (wp_mono (wp_writeCapsule_guarded hx h) fun _ _ k => k)
  | writeAsync limit arrivals id data policy =>
      exact wp_discard.mpr (wp_mono (wp_writeAsync_guarded hx h) fun _ _ k => k)
  | delete id =>
      refine hfree (uses_bind (uses_op trivial) fun capsule => uses_foldlM (fun _ x => ?_) _ _)
      exact uses_releaseSegment trivial (fun _ => trivial) trivial
  | collect ord =>
      exact hfree (uses_discard (uses_sweep (fun _ => trivial) (fun _ _ => trivial)
        (fun _ => trivial) ord))

end

end Space
