import Space.Native.Staging

/-!
# Native — Writing

What a write stores, and under which key.  The manager that encrypts may be rotated between two
writes; during one it keeps its settings, so the write seals all its segments under the version
that was current when it began.

* `SealedFrom`: a segment that a write sealed.
* `World.Writing`: during a write, what it has stored or staged is sealed so; everything else keeps
  its form and its payload, and nothing that is stored is overwritten.
* `wp_writeCapsule_writing`, `wp_writeAsync_writing`: what the two writes leave, whether they
  succeed or fail.
-/

namespace Space
open Support Prog

variable {P : Primitives} {policy : Policy} {data : Bytes} {w w₀ w' : World P}

/-! ### The key of a write -/

/-- All of a manager but its cache. -/
def KeyManager.settings (km : KeyManager P) : Block 32 × Block 32 × UInt32 × Bool :=
  (km.masterKey, km.hkdfSalt, km.currentVersion, km.rotating)

theorem KeyManager.getKey_settings (km : KeyManager P) (v : UInt32) :
    (km.getKey v).2.settings = km.settings := by
  unfold KeyManager.getKey
  split <;> rfl

theorem KeyManager.derive_settings {km km' : KeyManager P} (h : km'.settings = km.settings) :
    km'.derive = km.derive := by
  simp only [KeyManager.settings, Prod.mk.injEq] at h
  obtain ⟨h₁, h₂, -⟩ := h
  funext v
  unfold KeyManager.derive
  rw [h₁, h₂]

theorem KeyManager.version_settings {km km' : KeyManager P} (h : km'.settings = km.settings) :
    km'.currentVersion = km.currentVersion := congrArg (fun s => s.2.2.1) h

/-- The key under a policy depends on the settings only. -/
theorem Store.keyFor_settings {s s' : Store P}
    (h : s'.keyManager.map KeyManager.settings = s.keyManager.map KeyManager.settings) :
    s'.keyFor policy = s.keyFor policy := by
  unfold Store.keyFor Store.currentKey
  cases hs : s.keyManager with
  | none =>
      rw [hs] at h
      rw [Option.map_eq_none_iff.mp h]
  | some km =>
      rw [hs] at h
      obtain ⟨km', e, hkm⟩ := Option.map_eq_some_iff.mp h
      rw [e]
      simp only [KeyManager.getKey_fst, KeyManager.version_settings hkm,
        KeyManager.derive_settings hkm]

/-! ### What a write stores -/

/-- A segment that a write sealed under `key`: its view is that of a chunk of the data. -/
def SealedFrom (P : Primitives) (key : Option (UInt32 × XtsKeyPair)) (policy : Policy)
    (data view : Bytes) (s : Segment) (payload : Bytes) : Prop :=
  ∃ chunk ∈ chunks SEGMENT_SIZE data, ∃ r m x off,
    compressSegment P chunk policy.compression = .ok (view, r) ∧
    sealView P key view (hashContent P view) = .ok (payload, m) ∧
    s = (Segment.appended x off (asU32 payload.length)).describe r
      (policy.registeredHash P view) m

/-- The segment has the form of one that a write sealed under `key`. -/
def Segment.SealedBy (P : Primitives) (key : Option (UInt32 × XtsKeyPair)) (policy : Policy)
    (data : Bytes) (s : Segment) (payload : Bytes) : Prop :=
  ∃ view s₁, s₁.form = s.form ∧ SealedFrom P key policy data view s₁ payload

theorem Segment.SealedBy.len {key : Option (UInt32 × XtsKeyPair)} {s : Segment} {payload : Bytes}
    (h : s.SealedBy P key policy data payload) : s.len = asU32 payload.length := by
  obtain ⟨view, s₁, hf, chunk, -, r, m, x, off, -, -, rfl⟩ := h
  exact (congrArg Segment.len hf).symm.trans describe_len

/-- A prepared chunk is sealed, wherever it is stored. -/
theorem sealedBy_segment {key : Option (UInt32 × XtsKeyPair)} {chunk : Bytes × Nat}
    {p : SegmentPrepared} (hc : chunk.1 ∈ chunks SEGMENT_SIZE data)
    (h : sealedChunk P key policy chunk = some p) (x : SegmentId) (offset : Nat) :
    (p.segment policy x offset).SealedBy P key policy data p.finalData := by
  unfold sealedChunk at h
  split at h
  · cases h
  · next view r hcomp =>
      split at h
      · cases h
      · next payload m hseal =>
          cases h
          exact ⟨view, _, rfl, chunk.1, hc, r, m, x, offset, hcomp, hseal, rfl⟩

namespace World

/-- Every segment has its payload in its extent, and the payloads of `queue` are to follow each
other from the end of the file to where the next one goes. -/
structure Laid (queue : List PendingSegment) (w : World P) : Prop where
  extent : ∀ x s, w.seg x = some s → w.Extent x s
  tiles : Tiles w.file.length (queue.map fun p => ⟨p.segment.id, p.segment.offset, p.data⟩)
    w.store.nvram.nextOffset

/-- During a write that began in `w₀`, with `queue` staged. -/
structure Writing (w₀ : World P) (policy : Policy) (data : Bytes) (queue : List PendingSegment)
    (w : World P) : Prop where
  manager : w.store.keyManager.map KeyManager.settings =
    w₀.store.keyManager.map KeyManager.settings
  stored : ∀ x s, w.seg x = some s →
    (∃ s₀, w₀.seg x = some s₀ ∧ s₀.form = s.form ∧ w₀.payload x = w.payload x) ∨
      s.SealedBy P (w₀.store.keyFor policy) policy data (w.payload x)
  queued : ∀ p ∈ queue, p.segment.SealedBy P (w₀.store.keyFor policy) policy data p.data
  laid : w₀.Laid [] → w.Laid queue

variable {queue rest : List PendingSegment} {x : SegmentId} {s : Segment} {d : Bytes}

theorem Laid.empty (km : Option (KeyManager P)) : (World.empty km).Laid [] :=
  ⟨fun _ _ h => (by cases h), rfl⟩

theorem Writing.start : w.Writing policy data [] w :=
  ⟨rfl, fun _ s h => .inl ⟨s, h, rfl, rfl⟩, fun _ h => absurd h List.not_mem_nil, id⟩

/-- The keys stay what they were. -/
theorem Writing.keys (h : w₀.Writing policy data queue w) :
    w.store.keyManager.map KeyManager.derive = w₀.store.keyManager.map KeyManager.derive := by
  have hm := h.manager
  cases hk : w₀.store.keyManager with
  | none =>
      rw [hk] at hm
      rw [Option.map_eq_none_iff.mp hm]
  | some km =>
      rw [hk] at hm
      obtain ⟨km', hk', hs⟩ := Option.map_eq_some_iff.mp hm
      rw [hk']
      exact congrArg some (KeyManager.derive_settings hs)

theorem Writing.key (h : w₀.Writing policy data queue w) :
    w.store.keyFor policy = w₀.store.keyFor policy := Store.keyFor_settings h.manager

/-- Nothing is stored, and what is stored keeps its form and its place. -/
theorem Writing.change (h : w₀.Writing policy data queue w)
    (hk : w'.store.keyManager.map KeyManager.settings =
      w.store.keyManager.map KeyManager.settings)
    (hp : w'.ledger.payload = w.ledger.payload) (hf : w'.file = w.file)
    (ho : w'.store.nvram.nextOffset = w.store.nvram.nextOffset)
    (hs : ∀ x s', w'.seg x = some s' → ∃ s, w.seg x = some s ∧ s'.form = s.form ∧
      s'.offset = s.offset) : w₀.Writing policy data queue w' := by
  have hpay : ∀ x, w'.payload x = w.payload x := fun x => congrFun hp x
  refine ⟨hk.trans h.manager, fun x s' hx => ?_, h.queued, fun hl => ⟨fun x s' hx => ?_, ?_⟩⟩
  · obtain ⟨s, hx, hform, -⟩ := hs x s' hx
    rw [hpay, Segment.SealedBy, hform]
    exact h.stored x s hx
  · obtain ⟨s, hx, hform, hoff⟩ := hs x s' hx
    obtain ⟨h₁, h₂, h₃⟩ := (h.laid hl).extent x s hx
    have hlen : s'.form.len = s.form.len := congrArg Segment.len hform
    exact ⟨by rw [hpay]; exact hlen.trans h₁, by rw [hpay, hf, hoff]; exact h₂,
      by rw [hpay, hf, hoff]; exact h₃⟩
  · rw [hf, ho]
    exact (h.laid hl).tiles

/-- A segment more, whose payload was sealed by the write. -/
theorem Writing.put (h : w₀.Writing policy data queue w)
    (hk : w'.store.keyManager = w.store.keyManager)
    (hs : ∀ y, w'.seg y = if y = x then some s else w.seg y)
    (hp : ∀ y, w'.payload y = if y = x then d else w.payload y)
    (hd : s.SealedBy P (w₀.store.keyFor policy) policy data d) (hr : rest ⊆ queue)
    (hl : w.Laid queue → w'.Laid rest) : w₀.Writing policy data rest w' := by
  refine ⟨hk ▸ h.manager, fun y t hy => ?_, fun p hq => h.queued p (hr hq),
    fun hl₀ => hl (h.laid hl₀)⟩
  rw [hs] at hy
  rw [hp]
  split at hy
  · next e =>
      cases hy
      rw [if_pos e]
      exact .inr hd
  · next e =>
      rw [if_neg e]
      exact h.stored y t hy

/-- It is written at the end of the file. -/
theorem Laid.put (h : w.Laid queue) (hf : w'.file = w.file ++ d)
    (hs : ∀ y, w'.seg y = if y = x then some s else w.seg y)
    (hp : ∀ y, w'.payload y = if y = x then d else w.payload y)
    (ho : s.offset = w.file.length) (hl : s.len = asU32 d.length)
    (ht : Tiles w'.file.length (rest.map fun p => ⟨p.segment.id, p.segment.offset, p.data⟩)
      w'.store.nvram.nextOffset) : w'.Laid rest := by
  refine ⟨fun y t hy => ?_, ht⟩
  rw [hs] at hy
  split at hy
  · next e =>
      cases hy
      have hpay : w'.payload y = d := (hp y).trans (if_pos e)
      refine ⟨hpay ▸ hl, ?_, ?_⟩
      · rw [hpay, hf, ho, List.length_append]
      · rw [hpay, hf, ho]
        exact slice_append_right _ _
  · next e =>
      exact (h.extent y t hy).grow hf ((hp y).trans (if_neg e))

end World

/-! ### Operations that store nothing -/

/-- The operation writes no payload and no metadata. -/
def StoreOp.StoresNothing : StoreOp → Prop
  | .append _ _ => False
  | .updateSegmentMetadata _ _ => False
  | .appendSegment _ _ _ => False
  | .commit _ => False
  | .rollback _ => False
  | _ => True

section
variable {queue : List PendingSegment} {o : StoreOp} {note : Bytes}

theorem currentKey_settings (s : Store P) : s.currentKey.2.keyManager.map KeyManager.settings =
    s.keyManager.map KeyManager.settings := by
  unfold Store.currentKey
  cases hk : s.keyManager with
  | none => simp [hk]
  | some km => simp [KeyManager.getKey_settings]

theorem getKey_settings (s : Store P) (v : Option UInt32) :
    (s.getKey v).2.keyManager.map KeyManager.settings = s.keyManager.map KeyManager.settings := by
  unfold Store.getKey
  cases hk : s.keyManager with
  | none => simp [hk]
  | some km => cases v <;> simp [hk, KeyManager.getKey_settings]

/-- What such an operation leaves of the log and of the manager. -/
structure World.Rests (w w' : World P) : Prop where
  manager : w'.store.keyManager.map KeyManager.settings =
    w.store.keyManager.map KeyManager.settings
  payload : w'.ledger.payload = w.ledger.payload
  file : w'.file = w.file
  offset : w'.store.nvram.nextOffset = w.store.nvram.nextOffset
  seg : ∀ x s', w'.seg x = some s' → ∃ s, w.seg x = some s ∧ s'.form = s.form ∧
    s'.offset = s.offset

/-- Only the map of the log changed, and no form or place in it. -/
theorem World.Rests.map {m : Table SegmentId Segment}
    (hn : w'.store.nvram = w.store.nvram.withMap m)
    (hk : w'.store.keyManager = w.store.keyManager) (hp : w'.ledger.payload = w.ledger.payload)
    (hm : ∀ x s', m.lookup x = some s' → ∃ s, w.seg x = some s ∧ s'.form = s.form ∧
      s'.offset = s.offset) : w.Rests w' := by
  refine ⟨congrArg _ hk, hp, ?_, ?_, fun x s' hs => hm x s' (Eq.trans ?_ hs)⟩
  · exact (congrArg NvramLog.file hn).trans rfl
  · exact (congrArg NvramLog.nextOffset hn).trans rfl
  · exact congrArg (fun log : NvramLog => log.segmentMap.lookup x) hn.symm

theorem World.Rests.same (hn : w'.store.nvram = w.store.nvram)
    (hk : w'.store.keyManager.map KeyManager.settings =
      w.store.keyManager.map KeyManager.settings)
    (hp : w'.ledger.payload = w.ledger.payload) : w.Rests w' := by
  refine ⟨hk, hp, congrArg NvramLog.file hn, congrArg NvramLog.nextOffset hn,
    fun x s' hs => ⟨s', Eq.trans ?_ hs, rfl, rfl⟩⟩
  show w.store.nvram.segmentMap.lookup x = w'.store.nvram.segmentMap.lookup x
  rw [hn]

/-- One segment has other counts. -/
theorem World.Rests.put {x : SegmentId} {s s' : Segment} (hx : w.seg x = some s)
    (hf : s'.form = s.form) (ho : s'.offset = s.offset) : w.Rests (w.putSegment x s') := by
  refine .map rfl rfl rfl fun y t hy => ?_
  rcases Table.lookup_insert_eq_some.mp hy with ⟨rfl, rfl⟩ | ⟨-, hy⟩
  · exact ⟨s, hx, hf, ho⟩
  · exact ⟨t, hy, rfl, rfl⟩

theorem rests_increment (x : SegmentId) : w.Rests (World.exec note (.incrementRefcount x) w).2 := by
  cases hs : w.seg x with
  | none =>
      obtain ⟨e, he⟩ : ∃ e, World.exec note (.incrementRefcount x) w = (.error e, w) :=
        World.exec_increment_none hs
      rw [he]
      exact .same rfl rfl rfl
  | some s =>
      rw [World.exec_increment hs]
      exact .put hs rfl rfl

theorem rests_decrement (x : SegmentId) : w.Rests (World.exec note (.decrementRefcount x) w).2 := by
  simp only [World.exec, StoreOp.exec, NvramLog.decrementRefcount]
  split
  · exact .same rfl rfl rfl
  · next s hs =>
      split
      · exact .same rfl rfl rfl
      · exact .put (x := x) (s := s) hs rfl rfl

theorem rests_remove (x : SegmentId) : w.Rests (World.exec note (.removeSegment x) w).2 := by
  simp only [World.exec, StoreOp.exec, Store.onNvram, NvramLog.removeSegment]
  split
  · exact .same rfl rfl rfl
  · exact .map rfl rfl rfl fun y s hy => ⟨s, (Table.lookup_erase_eq_some.mp hy).2, rfl, rfl⟩

theorem StoreOp.StoresNothing.rests (ho : o.StoresNothing) : w.Rests (World.exec note o w).2 := by
  cases o with
  | append => exact ho.elim
  | updateSegmentMetadata => exact ho.elim
  | appendSegment => exact ho.elim
  | commit => exact ho.elim
  | rollback => exact ho.elim
  | incrementRefcount x => exact rests_increment x
  | decrementRefcount x => exact rests_decrement x
  | removeSegment x => exact rests_remove x
  | currentKey => exact .same w.store.currentKey_snd.2.1 (currentKey_settings _) rfl
  | getKey v =>
      refine .same ?_ (getKey_settings _ _) rfl
      show (w.store.getKey v).2.nvram = w.store.nvram
      unfold Store.getKey
      cases w.store.keyManager <;> cases v <;> rfl
  | createCapsuleWithSegments id size segments policy =>
      refine .same rfl rfl ?_
      show (Ledger.record note w.ledger (.createCapsuleWithSegments id size segments policy)
        (w.store.registry.createCapsuleWithSegments id size segments policy).1).payload = _
      cases (w.store.registry.createCapsuleWithSegments id size segments policy).1 <;> rfl
  | _ => exact .same rfl rfl rfl

/-- What a write has stored stays. -/
theorem World.Writing.rests (h : w₀.Writing policy data queue w) (hr : w.Rests w') :
    w₀.Writing policy data queue w' :=
  h.change hr.manager hr.payload hr.file hr.offset hr.seg

theorem wp_storesNothing_writing {α : Type} {p : Native α} (hp : p.Uses StoreOp.StoresNothing)
    (h : w₀.Writing policy data queue w) :
    p.wp (World.exec note).moves (fun _ _ => True)
      (fun _ w' => w₀.Writing policy data queue w') w :=
  wp_of_run (run_keeps (fun _ _ ho h => World.Writing.rests h ho.rests) hp h)

/-- The key is that of the write. -/
theorem wp_encryptionKey_writing {Q : Except Error (Option (UInt32 × XtsKeyPair)) → World P → Prop}
    (h : w₀.Writing policy data queue w)
    (hQ : ∀ w', w.Rests w' → w'.next = w.next → Q (.ok (w₀.store.keyFor policy)) w') :
    (WritePipeline.encryptionKey policy).wp (World.exec data).moves (fun _ _ => True) Q w := by
  have hkey := h.key
  unfold WritePipeline.encryptionKey
  unfold Store.keyFor at hkey hQ
  by_cases he : policy.encryption.isEnabled = true
  · rw [if_pos he]
    rw [if_pos he] at hQ
    rw [if_pos he, if_pos he] at hkey
    rw [← hkey] at hQ
    exact World.wp_exec .currentKey trivial
      (hQ _ (StoreOp.StoresNothing.rests trivial)
        (congrArg (fun reg : CapsuleRegistry => reg.nextSegmentId) w.store.currentKey_snd.1))
  · rw [if_neg he]
    rw [if_neg he] at hQ
    exact hQ w (.same rfl rfl rfl) rfl

end

/-! ### The synchronous write -/

namespace WritePipeline

variable {Q : Except Error WriteState → World P → Prop} {st : WriteState}

/-- **Storing a view**, sealed under the key of the write. -/
theorem wp_storeNew_writing {chunk view payload : Bytes} {r : CompressionResult}
    {m : Option EncryptionMetadata} {Q : Except Error SegmentId → World P → Prop}
    (h : w₀.Writing policy data [] w) (hc : chunk ∈ chunks SEGMENT_SIZE data)
    (hcomp : compressSegment P chunk policy.compression = .ok (view, r))
    (hseal : sealView P (w₀.store.keyFor policy) view (hashContent P view) = .ok (payload, m))
    (hQ : ∀ x w', w₀.Writing policy data [] w' → Q (.ok x) w') :
    (storeNew payload r (policy.registeredHash P view) m).wp (World.exec data).moves
      (fun _ _ => True) Q w := by
  unfold storeNew
  refine wp_bind.mpr (World.wp_exec .allocSegment trivial ?_)
  set x : SegmentId := ⟨w.next⟩ with hx
  set w₁ : World P := (World.exec data .allocSegment w).2 with hw₁
  show andThen _ _ _ Q (.ok x) w₁
  refine wp_bind.mpr (wp_mapError.mpr (World.wp_exec (.append x payload) trivial ?_))
  set s₀ := Segment.appended x w₁.store.nvram.nextOffset (asU32 payload.length) with hs₀
  set w₂ : World P := (World.exec data (.append x payload) w₁).2 with hw₂
  show andThen _ _ _ Q (.ok s₀) w₂
  refine wp_bind.mpr (wp_mapError.mpr (World.wp_exec (.updateSegmentMetadata x _) trivial ?_))
  set s₁ := s₀.describe r (policy.registeredHash P view) m with hs₁
  have h₁ : w₀.Writing policy data [] w₁ := h.rests (StoreOp.StoresNothing.rests trivial)
  have hseg : ∀ y, (World.exec data (.updateSegmentMetadata x s₁) w₂).2.seg y =
      if y = x then some s₁ else w₁.seg y := by
    intro y
    refine (Table.lookup_insert _ _ _ _).trans ?_
    split
    · rfl
    · next hy => exact (Table.lookup_insert _ _ _ _).trans (if_neg hy)
  have hpay : ∀ y, (World.exec data (.updateSegmentMetadata x s₁) w₂).2.payload y =
      if y = x then payload else w₁.payload y := fun y => Function.update_apply _ _ _ _
  -- what is put is the sealed view of a chunk, and in a log without gaps it lies at the end
  refine hQ x _ (h₁.put rfl hseg hpay ?_ (List.Subset.refl _) fun hl => ?_)
  · exact ⟨view, s₁, rfl, chunk, hc, r, m, x, _, hcomp, hseal, rfl⟩
  · have hend : w₁.file.length = w₁.store.nvram.nextOffset := hl.tiles
    have hfile : (World.exec data (.updateSegmentMetadata x s₁) w₂).2.file =
        w₁.file ++ payload := by
      show writeAt 0 w₁.file w₁.store.nvram.nextOffset payload = _
      rw [← hend]
      exact writeAt_end _ _ _
    refine hl.put hfile hseg hpay (describe_offset.trans hend.symm) describe_len ?_
    show _ = w₁.store.nvram.nextOffset + payload.length
    rw [hfile, List.length_append, hend]

theorem wp_writeChunk_writing {chunk : Bytes} {index : Nat} (h : w₀.Writing policy data [] w)
    (hc : chunk ∈ chunks SEGMENT_SIZE data)
    (hok : ∀ st' w', w₀.Writing policy data [] w' → Q (.ok st') w')
    (herr : ∀ e w', w₀.Writing policy data [] w' → Q (.error e) w') :
    (writeChunk P policy st (chunk, index)).wp (World.exec data).moves (fun _ _ => True) Q w := by
  unfold writeChunk
  refine wp_bind.mpr (wp_lift.mpr ?_)
  cases hcomp : compressSegment P chunk policy.compression with
  | error e => exact herr _ _ h
  | ok vr =>
  obtain ⟨view, r⟩ := vr
  refine wp_bind.mpr (wp_encryptionKey_writing h fun w₁ hr _ => ?_)
  have h₁ := h.rests hr
  refine wp_bind.mpr (wp_lift.mpr ?_)
  cases hseal : sealView P (w₀.store.keyFor policy) view (hashContent P view) with
  | error e => exact herr _ _ h₁
  | ok pm =>
  obtain ⟨payload, m⟩ := pm
  have hreg : policy.registeredHash P view =
      if policy.dedupe = true then some (hashContent P view) else none := rfl
  have hstore := fun {Q : Except Error SegmentId → World P → Prop} => wp_storeNew_writing
    (r := r) (m := m) (Q := Q) h₁ hc hcomp hseal
  show Prog.wp _ _ Q (if policy.dedupe = true then _ else _) w₁
  by_cases hd : policy.dedupe = true
  · rw [if_pos hd]
    rw [if_pos hd] at hreg
    rw [hreg] at hstore
    refine wp_bind.mpr (World.wp_exec (.lookupContent (hashContent P view)) trivial ?_)
    show andThen _ _ _ Q (.ok (w₁.content (hashContent P view))) w₁
    cases w₁.content (hashContent P view) with
    | some x =>
        refine wp_bind.mpr (wp_mapError.mpr (World.wp_exec (.incrementRefcount x) trivial ?_))
        have h₂ : w₀.Writing policy data [] (World.exec data (.incrementRefcount x) w₁).2 :=
          h₁.rests (rests_increment x)
        cases (World.exec data (.incrementRefcount x) w₁).1 with
        | ok s => exact hok _ _ h₂
        | error e => exact herr _ _ h₂
    | none =>
        refine wp_bind.mpr (hstore fun x w₂ h₂ => ?_)
        refine wp_bind.mpr (wp_mapError.mpr
          (World.wp_exec (.registerContent (hashContent P view) x) trivial ?_))
        exact hok _ _ (h₂.rests (StoreOp.StoresNothing.rests trivial))
  · rw [if_neg hd]
    rw [if_neg hd] at hreg
    rw [hreg] at hstore
    exact wp_bind.mpr (hstore fun x w₂ h₂ => hok _ _ h₂)

/-- **A synchronous write.** -/
theorem wp_writeCapsule_writing {id : CapsuleId} {w : World P} :
    (writeCapsuleWithPolicy P id data policy).wp (World.exec data).moves (fun _ _ => True)
      (fun _ w' => w.Writing policy data [] w') w := by
  unfold writeCapsuleWithPolicy
  refine wp_bind.mpr (wp_foldlM (fun rest _ w' => w.Writing policy data [] w' ∧
    ∀ c ∈ rest, c.1 ∈ chunks SEGMENT_SIZE data) ?_ ?_ _ _ _ ⟨.start, fun c hc => ?_⟩)
  · rintro ⟨chunk, index⟩ rest st w' ⟨h, hmem⟩
    exact wp_writeChunk_writing h (hmem _ List.mem_cons_self)
      (fun _ _ h' => ⟨h', fun c hc => hmem c (List.mem_cons_of_mem _ hc)⟩) fun _ _ h' => h'
  · rintro st w' ⟨h, -⟩
    refine wp_storesNothing_writing ?_ h
    have hcreate : ((Native.createCapsuleWithSegments id data.length st.segmentIds policy).mapError
        (mapRegistryError "create_capsule_with_segments") >>= fun _ => pure id :
        Native CapsuleId).Uses StoreOp.StoresNothing :=
      uses_bind (uses_mapError.mpr (uses_perform.mpr trivial)) fun _ => trivial
    show Prog.Uses _ (if 0 < st.dedupStats.bytesSaved then _ else _)
    split
    · exact uses_bind (uses_mapError.mpr (uses_perform.mpr trivial)) fun _ => hcreate
    · exact hcreate
  · obtain ⟨chunk, index⟩ := c
    exact List.fst_mem_of_mem_zipIdx hc

end WritePipeline

/-! ### The transaction of an asynchronous write -/

/-- A pending segment with other counts. -/
structure PendingSegment.Recounted (p q : PendingSegment) : Prop where
  form : q.segment.form = p.segment.form
  offset : q.segment.offset = p.segment.offset
  data : q.data = p.data

theorem recounted_modifyPending {x : SegmentId} {f : Segment → Segment}
    (hf : ∀ s, (f s).form = s.form ∧ (f s).offset = s.offset) :
    ∀ {l l' : List PendingSegment}, NvramTransaction.modifyPending x f l = some l' →
      List.Forall₂ PendingSegment.Recounted l l'
  | [], _, h => by cases h
  | p :: l, l', h => by
      rw [NvramTransaction.modifyPending] at h
      split at h
      · cases h
        exact .cons ⟨(hf p.segment).1, (hf p.segment).2, rfl⟩
          (List.forall₂_same.mpr fun _ _ => ⟨rfl, rfl, rfl⟩)
      · obtain ⟨rest, hrest, rfl⟩ := Option.map_eq_some_iff.mp h
        exact .cons ⟨rfl, rfl, rfl⟩ (recounted_modifyPending hf hrest)

theorem PendingSegment.Recounted.staged {p q : PendingSegment} (h : p.Recounted q) :
    Staged.mk q.segment.id q.segment.offset q.data =
      ⟨p.segment.id, p.segment.offset, p.data⟩ := by
  have hid : q.segment.form.id = p.segment.form.id := congrArg Segment.id h.form
  rw [h.offset, h.data]
  exact congrArg (fun x => Staged.mk x p.segment.offset p.data) hid

/-- The transaction is open, and what it has staged was sealed by the write. -/
structure World.Open (w₀ : World P) (policy : Policy) (data : Bytes) (t : NvramTransaction)
    (w : World P) : Prop where
  writing : w₀.Writing policy data t.pending w
  active : t.finalized = false
  offset : w.store.nvram.nextOffset = t.currentOffset
  base : w₀.Laid [] → t.baseOffset = w.file.length
  drawn : ∀ p ∈ t.pending, p.segment.id.val < w.next

/-- What a segment of the map is, once pending segments are installed, and its payload. -/
theorem lookup_installPending_payload {x : SegmentId} {s : Segment} :
    ∀ {l : List PendingSegment} {m : Table SegmentId Segment} (payload : SegmentId → Bytes),
      (NvramTransaction.installPending l m).lookup x = some s →
      (∃ p ∈ l, p.segment = s ∧ Ledger.recordPending l payload x = p.data) ∨
        m.lookup x = some s ∧ Ledger.recordPending l payload x = payload x
  | [], _, _, h => .inr ⟨h, rfl⟩
  | p :: l, m, payload, h => by
      have h' : (NvramTransaction.installPending l
          (m.insert p.segment.id p.segment)).lookup x = some s := h
      rcases lookup_installPending_payload (Function.update payload p.segment.id p.data) h' with
        ⟨q, hq, hs, hp⟩ | ⟨hs, hp⟩
      · exact .inl ⟨q, List.mem_cons_of_mem _ hq, hs, hp⟩
      · rcases Table.lookup_insert_eq_some.mp hs with ⟨rfl, rfl⟩ | ⟨hne, hs⟩
        · exact .inl ⟨p, List.mem_cons_self, rfl, hp.trans (Function.update_self _ _ _)⟩
        · exact .inr ⟨hs, hp.trans (Function.update_of_ne hne _ _)⟩

/-- Stored one after the other, the payloads that were to follow the end of the file are in it. -/
theorem World.Laid.storedAll : ∀ {l : List PendingSegment} {w : World P}, w.Laid l →
    (∀ p ∈ l, p.segment.len = asU32 p.data.length) → (w.storedAll l).Laid []
  | [], _, h, _ => h
  | p :: l, w, h, hl => by
      obtain ⟨ho, ht⟩ := h.tiles
      refine World.Laid.storedAll (w := w.stored p.segment p.data w.store.nvram.nextOffset) ?_
        fun q hq => hl q (List.mem_cons_of_mem _ hq)
      refine h.put rfl (World.seg_stored _ _ _ _) (fun y => Function.update_apply _ _ _ _) ho
        (hl p List.mem_cons_self) ?_
      show Tiles (w.file ++ p.data).length _ _
      rw [List.length_append]
      exact ht

namespace World.Open
variable {t : NvramTransaction}

theorem rests (h : w₀.Open policy data t w) (hr : w.Rests w') (hn : w.next ≤ w'.next) :
    w₀.Open policy data t w' where
  writing := h.writing.rests hr
  active := h.active
  offset := hr.offset.trans h.offset
  base := fun hl => (h.base hl).trans (congrArg List.length hr.file.symm)
  drawn := fun p hp => (h.drawn p hp).trans_le hn

/-- **The transaction is committed**: what was staged is stored. -/
theorem commit (h : w₀.Open policy data t w) :
    w₀.Writing policy data [] (World.exec data (.commit t) w).2 := by
  have hmap : (t.commit w.store.nvram).2.segmentMap =
      NvramTransaction.installPending t.pending w.store.nvram.segmentMap := by
    unfold NvramTransaction.commit
    rw [if_neg (by rw [h.active]; exact Bool.false_ne_true)]
    split
    · next e => rw [e]; rfl
    · rfl
  have hpay : ∀ x, (World.exec data (.commit t) w).2.payload x =
      Ledger.recordPending t.pending w.ledger.payload x := fun x => by
    simp only [World.payload, World.exec, StoreOp.exec, Store.onNvram, Ledger.record, h.active,
      Bool.false_eq_true, if_false]
  refine ⟨h.writing.manager, fun x s hx => ?_, fun _ hp => absurd hp List.not_mem_nil,
    fun hl => ?_⟩
  · have hx' : (t.commit w.store.nvram).2.segmentMap.lookup x = some s := hx
    rw [hmap] at hx'
    rw [hpay]
    rcases lookup_installPending_payload w.ledger.payload hx' with
      ⟨p, hp, rfl, e⟩ | ⟨hs, e⟩
    · rw [e]
      exact .inr (h.writing.queued p hp)
    · rw [e]
      exact h.writing.stored x s hs
  · have hq := h.writing.laid hl
    obtain ⟨t', e⟩ : ∃ t', World.exec data (.commit t) w = (.ok t', w.storedAll t.pending) :=
      World.exec_commit h.active h.offset (h.offset ▸ hq.tiles)
    rw [e]
    exact hq.storedAll fun p hp => (h.writing.queued p hp).len

/-- What was staged is given up. -/
theorem rollback (h : w₀.Open policy data t w) :
    w₀.Writing policy data [] (World.exec data (.rollback t) w).2 := by
  have hn : (t.rollback w.store.nvram).2 = { w.store.nvram with nextOffset := t.baseOffset } := by
    unfold NvramTransaction.rollback
    rw [if_neg (by rw [h.active]; exact Bool.false_ne_true)]
  have hw : (World.exec data (.rollback t) w).2 = w.moved t.baseOffset :=
    congrArg (fun log : NvramLog => (⟨{ w.store with nvram := log }, w.ledger⟩ : World P)) hn
  rw [hw]
  refine ⟨h.writing.manager, h.writing.stored, fun _ hp => absurd hp List.not_mem_nil,
    fun hl => ⟨fun x s hx => ?_, (h.base hl).symm⟩⟩
  obtain ⟨h₁, h₂, h₃⟩ := (h.writing.laid hl).extent x s hx
  exact ⟨h₁, h₂, h₃⟩

/-- A payload is staged that was sealed by the write. -/
theorem stage (h : w₀.Open policy data t w) {s : Segment} {d : Bytes}
    (hs : s.SealedBy P (w₀.store.keyFor policy) policy data d) (ho : s.offset = t.currentOffset)
    (hid : s.id.val < w.next) :
    w₀.Open policy data { t with
      pending := t.pending ++ [⟨s, d⟩]
      currentOffset := t.currentOffset + d.length } (w.moved (t.currentOffset + d.length)) := by
  refine ⟨⟨h.writing.manager, h.writing.stored, fun p hp => ?_, fun hl => ⟨fun x s hx => ?_, ?_⟩⟩,
    h.active, rfl, h.base, fun p hp => ?_⟩
  · rcases List.mem_append.mp hp with hp | hp
    · exact h.writing.queued p hp
    · obtain rfl := List.mem_singleton.mp hp
      exact hs
  · obtain ⟨h₁, h₂, h₃⟩ := (h.writing.laid hl).extent x s hx
    exact ⟨h₁, h₂, h₃⟩
  · have ht := (h.writing.laid hl).tiles
    rw [h.offset] at ht
    rw [List.map_append]
    exact ht.snoc ho
  · rcases List.mem_append.mp hp with hp | hp
    · exact h.drawn p hp
    · obtain rfl := List.mem_singleton.mp hp
      exact hid

/-- Pending segments get other counts. -/
theorem recount (h : w₀.Open policy data t w) {pending : List PendingSegment}
    (hp : List.Forall₂ PendingSegment.Recounted t.pending pending) :
    w₀.Open policy data { t with pending := pending } w := by
  have hstaged : List.Forall₂ Eq
      (t.pending.map fun p => Staged.mk p.segment.id p.segment.offset p.data)
      (pending.map fun p => ⟨p.segment.id, p.segment.offset, p.data⟩) :=
    List.forall₂_map_left_iff.mpr (List.forall₂_map_right_iff.mpr
      (hp.imp fun _ _ k => k.staged.symm))
  rw [List.forall₂_eq_eq_eq] at hstaged
  refine ⟨⟨h.writing.manager, h.writing.stored, fun q hq => ?_, fun hl =>
    ⟨(h.writing.laid hl).extent, hstaged ▸ (h.writing.laid hl).tiles⟩⟩, h.active, h.offset, h.base,
    fun q hq => ?_⟩
  · obtain ⟨p, hpm, k⟩ := forall₂_mem_left hp.flip hq
    rw [k.data, Segment.SealedBy, k.form]
    exact h.writing.queued p hpm
  · obtain ⟨p, hpm, k⟩ := forall₂_mem_left hp.flip hq
    have hid : q.segment.form.id = p.segment.form.id := congrArg Segment.id k.form
    exact (congrArg SegmentId.val hid).trans_lt (h.drawn p hpm)

end World.Open

namespace WritePipeline

variable {queue : List PendingSegment} {t : NvramTransaction}
  {staged : Table ContentHash SegmentId} {prepared : SegmentPrepared}

theorem wp_prepareSegment_writing {chunk : Bytes × Nat}
    {Q : Except Error SegmentPrepared → World P → Prop} (h : w₀.Writing policy data queue w)
    (herr : ∀ e w', w.Rests w' → w'.next = w.next → Q (.error e) w')
    (hok : ∀ p w', w.Rests w' → w'.next = w.next →
      sealedChunk P (w₀.store.keyFor policy) policy chunk = some p → Q (.ok p) w') :
    (prepareSegment P policy chunk).wp (World.exec data).moves (fun _ _ => True) Q w := by
  unfold sealedChunk at hok
  refine wp_bind.mpr (wp_lift.mpr ?_)
  cases hcomp : compressSegment P chunk.1 policy.compression with
  | error e => exact herr _ _ (.same rfl rfl rfl) rfl
  | ok vr =>
  obtain ⟨view, r⟩ := vr
  refine wp_bind.mpr (wp_encryptionKey_writing h fun w₁ hr hn => ?_)
  refine wp_bind.mpr (wp_lift.mpr ?_)
  cases hseal : sealView P (w₀.store.keyFor policy) view (hashContent P view) with
  | error e => exact herr _ _ hr hn
  | ok pm =>
      refine hok _ _ hr hn ?_
      simp only [hcomp, hseal]

/-- **A prepared chunk is staged.** -/
theorem wp_stageNew_writing {chunk : Bytes × Nat}
    {Q : Except Error (CommitOutcome × NvramTransaction × Table ContentHash SegmentId) →
      World P → Prop} (h : w₀.Open policy data t w) (hc : chunk.1 ∈ chunks SEGMENT_SIZE data)
    (hp : sealedChunk P (w₀.store.keyFor policy) policy chunk = some prepared)
    (hQ : ∀ o w', w₀.Open policy data o.2.1 w' → Q (.ok o) w') :
    (stageNew policy prepared t staged).wp (World.exec data).moves (fun _ _ => True) Q w := by
  refine wp_bind.mpr (World.wp_exec .allocSegment trivial ?_)
  set x : SegmentId := ⟨w.next⟩ with hx
  set w₁ : World P := (World.exec data .allocSegment w).2 with hw₁
  show andThen _ _ _ Q (.ok x) w₁
  have hx₁ : x.val < w₁.next := Nat.lt_succ_self _
  have h₁ : w₀.Open policy data t w₁ :=
    h.rests (StoreOp.StoresNothing.rests trivial) (Nat.le_succ _)
  set s := Segment.appended x t.currentOffset (asU32 prepared.finalData.length) with hs
  have happend : World.exec data (.appendSegment t x prepared.finalData) w₁ =
      (.ok (s, { t with
          pending := t.pending ++ [⟨s, prepared.finalData⟩]
          currentOffset := t.currentOffset + prepared.finalData.length }),
        w₁.moved (t.currentOffset + prepared.finalData.length)) := by
    simp only [World.exec, StoreOp.exec, NvramTransaction.appendSegment,
      NvramTransaction.ensureActive, h.active, Bool.false_eq_true, if_false]
    rfl
  refine wp_bind.mpr (World.wp_exec (.appendSegment t x prepared.finalData) trivial ?_)
  rw [happend]
  refine wp_bind.mpr (wp_lift.mpr ?_)
  have hset : ∀ segment : Segment, NvramTransaction.setSegmentMetadata { t with
      pending := t.pending ++ [⟨s, prepared.finalData⟩]
      currentOffset := t.currentOffset + prepared.finalData.length } x segment =
      .ok { t with
        pending := t.pending ++ [⟨segment, prepared.finalData⟩]
        currentOffset := t.currentOffset + prepared.finalData.length } := fun segment =>
    withSegmentMut_first (p := ⟨s, prepared.finalData⟩) (b := []) h.active rfl rfl
      fun q hq e => absurd (congrArg SegmentId.val e) (Nat.ne_of_lt (h.drawn q hq))
  show andThen _ _ _ Q (NvramTransaction.setSegmentMetadata _ x _) _
  rw [hset]
  refine hQ _ _ ?_
  exact h₁.stage (sealedBy_segment hc hp x t.currentOffset) describe_offset
    ((congrArg SegmentId.val describe_id).trans_lt hx₁)

/-- **A prepared chunk is committed**; if it is not, the transaction is as it was. -/
theorem wp_commitSegment_writing {chunk : Bytes × Nat}
    {Q : Except Error (CommitOutcome × NvramTransaction × Table ContentHash SegmentId) →
      World P → Prop} (h : w₀.Open policy data t w) (hc : chunk.1 ∈ chunks SEGMENT_SIZE data)
    (hp : sealedChunk P (w₀.store.keyFor policy) policy chunk = some prepared)
    (herr : ∀ e w', w₀.Open policy data t w' → Q (.error e) w')
    (hok : ∀ o w', w₀.Open policy data o.2.1 w' → Q (.ok o) w') :
    (commitSegment policy prepared t staged).wp (World.exec data).moves (fun _ _ => True) Q w := by
  unfold commitSegment
  split
  · split
    · next x _ =>
        -- a segment of this write is reused
        split
        · exact herr _ _ h
        · refine wp_bind.mpr (wp_lift.mpr ?_)
          cases hmut : t.withSegmentMut x Segment.reuse with
          | error e => exact herr _ _ h
          | ok t' =>
              obtain ⟨pending, hmod, rfl⟩ := NvramTransaction.withSegmentMut_eq hmut
              exact hok _ _ (h.recount (recounted_modifyPending (f := Segment.reuse)
                (fun _ => ⟨rfl, rfl⟩) hmod))
    · refine wp_bind.mpr (World.wp_exec (.lookupContent prepared.contentHash) trivial ?_)
      show andThen _ _ _ Q (.ok (w.content prepared.contentHash)) w
      cases w.content prepared.contentHash with
      | none => exact wp_stageNew_writing h hc hp hok
      | some x =>
          refine wp_bind.mpr (World.wp_exec (.incrementRefcount x) trivial ?_)
          have h₁ : w₀.Open policy data t (World.exec data (.incrementRefcount x) w).2 :=
            h.rests (rests_increment x) (Nat.le_refl _)
          cases (World.exec data (.incrementRefcount x) w).1 with
          | error e => exact herr _ _ h₁
          | ok segment => exact hok _ _ h₁
  · exact wp_stageNew_writing h hc hp hok

/-- The coordinator between two tasks: what has arrived is sealed. -/
structure Coordinating (w₀ : World P) (policy : Policy) (data : Bytes) (st : AsyncState)
    (w : World P) : Prop where
  transaction : w₀.Open policy data st.transaction w
  arrived : ∀ i p, st.ordered.lookup i = some p → ∃ chunk, chunk.1 ∈ chunks SEGMENT_SIZE data ∧
    sealedChunk P (w₀.store.keyFor policy) policy chunk = some p

theorem wp_drain_writing : ∀ (n : Nat) {st : AsyncState} {w : World P},
    Coordinating w₀ policy data st w →
      (drain policy n st).wp (World.exec data).moves (fun _ _ => True)
        (fun r w' => ∃ st', r = .ok st' ∧ Coordinating w₀ policy data st' w') w
  | 0, st, _, h => ⟨st, rfl, h⟩
  | n + 1, st, _, h => by
      unfold drain
      split
      · exact ⟨st, rfl, h⟩
      · next prepared hprep =>
          obtain ⟨chunk, hc, hp⟩ := h.arrived _ prepared hprep
          refine wp_bind.mpr (wp_attempt.mpr (wp_commitSegment_writing h.transaction hc hp
            (fun e w' h' => ?_) fun o w' h' => ?_))
          · exact ⟨_, rfl, h', h.arrived⟩
          · exact wp_drain_writing n ⟨h', h.arrived⟩

theorem wp_arrive_writing {total : Nat} {st : AsyncState} {chunk : Bytes × Nat}
    (hc : chunk.1 ∈ chunks SEGMENT_SIZE data) (h : Coordinating w₀ policy data st w) :
    (arrive P policy total st chunk).wp (World.exec data).moves (fun _ _ => True)
      (fun r w' => ∃ st', r = .ok st' ∧ Coordinating w₀ policy data st' w') w := by
  refine wp_bind.mpr (wp_attempt.mpr (wp_prepareSegment_writing h.transaction.writing
    (fun e w' hr hn => ?_) fun p w' hr hn hp => ?_))
  · exact ⟨_, rfl, h.transaction.rests hr hn.ge, h.arrived⟩
  · have h' : w₀.Open policy data st.transaction w' := h.transaction.rests hr hn.ge
    show Prog.wp _ _ _ (if st.commitError.isSome = true then _ else _) w'
    split
    · exact ⟨st, rfl, h', h.arrived⟩
    · refine wp_drain_writing _ ⟨h', fun i q hq => ?_⟩
      rcases Table.lookup_insert_eq_some.mp hq with ⟨-, rfl⟩ | ⟨-, hq⟩
      · exact ⟨chunk, hc, hp⟩
      · exact h.arrived i q hq

/-- **Once all tasks are done.** -/
theorem wp_finishAsync_writing {size total : Nat} {id : CapsuleId} {st : AsyncState}
    (h : w₀.Open policy data st.transaction w) :
    (finishAsync id size policy total st).wp (World.exec data).moves (fun _ _ => True)
      (fun _ w' => w₀.Writing policy data [] w') w := by
  have hend : Finishes StoreOp.StoresNothing id size policy st :=
    ⟨fun _ _ => trivial, fun _ _ => trivial, fun _ _ => trivial, fun _ _ => trivial, trivial,
      trivial⟩
  have hrelease : ∀ e : Error, (releaseIncrements st.dedupeIncrements >>= fun _ =>
      (.fail e : Native CapsuleId)).Uses StoreOp.StoresNothing := fun e =>
    uses_bind (uses_releaseIncrements hend.decrement) fun _ => trivial
  unfold finishAsync
  split
  · refine wp_bind.mpr (wp_discard.mpr (World.wp_exec (.rollback st.transaction) trivial ?_))
    exact wp_storesNothing_writing (hrelease _) h.rollback
  · refine wp_bind.mpr (wp_attempt.mpr (World.wp_exec (.commit st.transaction) trivial ?_))
    cases (World.exec data (.commit st.transaction) w).1 with
    | error e => exact wp_storesNothing_writing (hrelease e) h.commit
    | ok t => exact wp_storesNothing_writing hend.uses_registered h.commit

/-- **An asynchronous write**, whatever the order its tasks complete in. -/
theorem wp_writeAsync_writing {limit : Nat} {arrivals : Order (Bytes × Nat)} {id : CapsuleId}
    {w : World P} :
    (writeCapsuleWithPolicyAsync P limit arrivals id data policy).wp (World.exec data).moves
      (fun _ _ => True) (fun _ w' => w.Writing policy data [] w') w := by
  show Prog.wp _ _ _ (if (chunks SEGMENT_SIZE data).zipIdx.length = 0 then _ else _) w
  split
  · refine wp_storesNothing_writing ?_ .start
    exact uses_bind (uses_mapError.mpr (uses_perform.mpr trivial)) fun _ => trivial
  · refine wp_bind.mpr (World.wp_exec .beginTransaction trivial ?_)
    show andThen _ _ _ _ (.ok w.store.nvram.beginTransaction) w
    have hbegin : w.Open policy data w.store.nvram.beginTransaction w :=
      ⟨.start, rfl, rfl, fun hl => hl.tiles.symm, fun _ hp => absurd hp List.not_mem_nil⟩
    refine andThen_ok.mpr ?_
    dsimp only
    split
    · exact wp_bind.mpr (wp_discard.mpr (World.wp_exec
        (.rollback w.store.nvram.beginTransaction) trivial hbegin.rollback))
    · refine wp_bind.mpr (wp_foldlM (fun rest st w' => Coordinating w policy data st w' ∧
        ∀ c ∈ rest, c.1 ∈ chunks SEGMENT_SIZE data) ?_ ?_ _ _ _
        ⟨⟨hbegin, fun _ _ hp => by cases hp⟩, fun c hc => ?_⟩)
      · rintro chunk rest st w' ⟨h, hmem⟩
        refine wp_mono (wp_arrive_writing (hmem _ List.mem_cons_self) h) ?_
        rintro _ w'' ⟨st', rfl, h'⟩
        exact ⟨h', fun c hc => hmem c (List.mem_cons_of_mem _ hc)⟩
      · rintro st w' ⟨h, -⟩
        exact wp_finishAsync_writing h.transaction
      · obtain ⟨chunk, index⟩ := c
        exact List.fst_mem_of_mem_zipIdx ((Order.mem_reorder _).mp hc)

end WritePipeline

end Space
