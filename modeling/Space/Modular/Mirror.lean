import Space.Modular.Collect
import Space.Modular.Registry
import Space.Modular.Lengths
import Space.Support.Paired

/-!
# Modular — Mirror

The modular pipeline over the log against the one in memory, call by call, with a catalog of its own
for each.  A transaction of the log changes the metadata of no segment it has not staged, so a view
that is known ends a write there; and `Segment.new` puts every payload at the beginning of the file,
over the others.

* `Mirrors`: the log has the segments that the other storage has, with the same metadata, and the
  payloads of those that matter are where the file begins.
* `Fits`: what is asked of a write; its views are new, and its payloads begin alike.
* `paired_writeCapsule`, `paired_readCapsule`, `paired_deleteCapsule`, `garbageCollect_matched`:
  each method keeps this, and has the same outcome on both sides.
* `backends_agree`: so it is in every run of writes that fit, reads, deletes and collections.
* `not_backends_agree`: not where the same data is written twice.
-/

namespace Space
open Support Prog

variable {parts : Parts} {X Y : SegmentId → Prop} {s s' : InMemory} {id : CapsuleId}
  {x : SegmentId} {policy : Policy} {data : Bytes}

/-! ### The two sides -/

/-- The modular pipeline over the log. -/
abbrev OverLog := NvramBackend × InMemoryCatalog

/-- An empty log, and nothing in the catalog. -/
def OverLog.empty : OverLog := (⟨.empty, .none⟩, {})

/-- What the operations do in memory. -/
abbrev memory (parts : Parts) : Handler ModularSig Error InMemory :=
  ModularOp.exec parts InMemoryBackend.storage

/-- What the operations do over the log. -/
abbrev overLog (parts : Parts) : Handler ModularSig Error OverLog :=
  ModularOp.exec parts NvramBackend.storage

namespace InMemoryCatalog
variable {c c' : InMemoryCatalog}

/-- The two catalogs answer the same. -/
structure Same (c c' : InMemoryCatalog) : Prop where
  next : c'.nextSegment = c.nextSegment
  capsules : ∀ id, c'.capsules.lookup id = c.capsules.lookup id
  content : ∀ hash, c'.content.lookup hash = c.content.lookup hash

theorem Same.allocate (h : c.Same c') : c.allocateSegment.2.Same c'.allocateSegment.2 where
  next := congrArg (· + 1) h.next
  capsules := h.capsules
  content := h.content

theorem Same.register (h : c.Same c') (hash : ContentHash) (x : SegmentId) :
    (c.registerContent hash x).Same (c'.registerContent hash x) where
  next := h.next
  capsules := h.capsules
  content := by
    intro hash'
    show (c'.content.insert hash x).lookup hash' = (c.content.insert hash x).lookup hash'
    rw [Table.lookup_insert, Table.lookup_insert, h.content]

theorem Same.deregister (h : c.Same c') (hash : ContentHash) (x : SegmentId) :
    (c'.deregisterContent hash x).1 = (c.deregisterContent hash x).1 ∧
      (c.deregisterContent hash x).2.Same (c'.deregisterContent hash x).2 := by
  rw [deregisterContent, deregisterContent, h.content]
  split
  · refine ⟨rfl, h.next, h.capsules, fun hash' => ?_⟩
    show (c'.content.erase hash).lookup hash' = (c.content.erase hash).lookup hash'
    rw [Table.lookup_erase, Table.lookup_erase, h.content]
  · exact ⟨rfl, h⟩

theorem Same.create (h : c.Same c') (id : CapsuleId) (size : Nat) (policy : Policy)
    (segments : List SegmentId) (stats : DedupStats) :
    (c.createCapsule id size policy segments stats).Same
      (c'.createCapsule id size policy segments stats) where
  next := h.next
  capsules := by
    intro id'
    show (c'.capsules.insert id _).lookup id' = (c.capsules.insert id _).lookup id'
    rw [Table.lookup_insert, Table.lookup_insert, h.capsules]
  content := h.content

theorem Same.lookupCapsule (h : c.Same c') (id : CapsuleId) :
    c'.lookupCapsule id = c.lookupCapsule id := by
  rw [InMemoryCatalog.lookupCapsule, InMemoryCatalog.lookupCapsule, h.capsules]

theorem Same.delete (h : c.Same c') (id : CapsuleId) :
    (c'.deleteCapsule id).1 = (c.deleteCapsule id).1 ∧
      (c.deleteCapsule id).2.Same (c'.deleteCapsule id).2 := by
  rw [deleteCapsule, deleteCapsule, h.capsules]
  cases c.capsules.lookup id with
  | none => exact ⟨rfl, h⟩
  | some capsule =>
      refine ⟨rfl, h.next, fun id' => ?_, h.content⟩
      show (c'.capsules.erase id).lookup id' = (c.capsules.erase id).lookup id'
      rw [Table.lookup_erase, Table.lookup_erase, h.capsules]

end InMemoryCatalog

/-- The log has the segments of the other storage, with the same metadata, each with one reference
and an extent at the beginning; and the file begins with the payload of each segment in `X`. -/
structure Mirrors (X : SegmentId → Prop) (s : InMemory) (t : OverLog) : Prop where
  catalog : s.2.Same t.2
  info : ∀ x, t.1.log.segmentMap.lookup x = s.info x
  bare : ∀ x m, s.info x = some m → m.offset = 0 ∧ m.refCount = 1
  len : ∀ x m q, s.info x = some m → s.seg x = some q → m.len = q.length
  begins : ∀ x, X x → ∀ q, s.seg x = some q → q <+: t.1.log.file

namespace Mirrors
variable {t t' : OverLog}

theorem start : Mirrors X .empty .empty := by
  refine ⟨⟨rfl, fun _ => rfl, fun _ => rfl⟩, fun _ => rfl, fun x m hm => ?_, fun x m q hm => ?_,
    fun x _ q hq => ?_⟩
  · cases hm
  · cases hm
  · cases hq

theorem mono (h : Mirrors X s t) (hY : ∀ x, Y x → X x) : Mirrors Y s t :=
  { h with begins := fun x hx => h.begins x (hY x hx) }

/-- To a reader of the storages, the same. -/
theorem congr (h : Mirrors X s t) (hseg : s'.seg = s.seg) (hinfo : s'.info = s.info)
    (hfile : t'.1.log.file = t.1.log.file) (hmap : t'.1.log.segmentMap = t.1.log.segmentMap)
    (hcat : s'.2.Same t'.2) : Mirrors X s' t' where
  catalog := hcat
  info := by
    rw [hmap, hinfo]
    exact h.info
  bare := by
    rw [hinfo]
    exact h.bare
  len := by
    rw [hinfo, hseg]
    exact h.len
  begins := by
    rw [hfile, hseg]
    exact h.begins

/-- The catalogs change alike. -/
theorem catalogs (h : Mirrors X s t) {c c' : InMemoryCatalog} (hc : c.Same c') :
    Mirrors X (s.1, c) (t.1, c') where
  catalog := hc
  info := h.info
  bare := h.bare
  len := h.len
  begins := h.begins

/-- **A segment reads the same.** -/
theorem read (h : Mirrors X s t) {m : Segment} {q : Bytes} (hx : X x) (hm : s.info x = some m)
    (hq : s.seg x = some q) : t.1.log.read x = .ok q := by
  have hmap := h.info x
  rw [hm] at hmap
  obtain ⟨hoffset, -⟩ := h.bare x m hm
  have hlen := h.len x m q hm hq
  have hprefix := h.begins x hx q hq
  rw [NvramLog.read, hmap]
  simp only [hoffset, hlen, Nat.zero_add]
  rw [if_pos (.inl hprefix.length_le), slice, List.drop_zero, ← List.prefix_iff_eq_take.mp hprefix]

/-- **Segments go** on both sides. -/
theorem remove (h : Mirrors X s t) (gone : List SegmentId)
    (hseg : ∀ x, s'.seg x = if x ∈ gone then none else s.seg x)
    (hinfo : ∀ x, s'.info x = if x ∈ gone then none else s.info x)
    (hfile : t'.1.log.file = t.1.log.file)
    (hmap : ∀ x, t'.1.log.segmentMap.lookup x = if x ∈ gone then none
      else t.1.log.segmentMap.lookup x) (hcat : s'.2.Same t'.2) : Mirrors X s' t' where
  catalog := hcat
  info := by
    intro x
    rw [hmap, hinfo, h.info]
  bare := by
    intro x m hm
    rw [hinfo] at hm
    split at hm
    · cases hm
    · exact h.bare x m hm
  len := by
    intro x m q hm hq
    rw [hinfo] at hm
    split at hm
    · cases hm
    · rename_i hkept
      rw [hseg, if_neg hkept] at hq
      exact h.len x m q hm hq
  begins := by
    intro x hx q hq
    rw [hseg] at hq
    rw [hfile]
    split at hq
    · cases hq
    · exact h.begins x hx q hq

end Mirrors

/-! ### Payloads that begin alike -/

/-- One of the two begins with the other. -/
def Comparable (p q : Bytes) : Prop := p <+: q ∨ q <+: p

/-- **Written over the beginning** of a file, a payload leaves what it is comparable with. -/
theorem Comparable.writeAt {p q file : Bytes} (h : Comparable p q) (hq : q <+: file) :
    q <+: writeAt 0 file 0 p := by
  rw [writeAt_zero]
  rcases h with ⟨r, rfl⟩ | hqp
  · obtain ⟨z, rfl⟩ := hq
    rw [List.append_assoc, List.drop_left]
    exact List.prefix_append_right_inj p |>.mpr (List.prefix_append r z)
  · exact hqp.trans (List.prefix_append _ _)

/-- A segment that is stored on both sides. -/
theorem Mirrors.enter {t t' : OverLog} {payload : Bytes} {m : Segment} (h : Mirrors X s t)
    (he : s.Entered payload m s') (ho : m.offset = 0) (hc : m.refCount = 1)
    (hl : m.len = payload.length) (hfit : ∀ x, X x → ∀ q, s.seg x = some q → Comparable payload q)
    (hfile : t'.1.log.file = writeAt 0 t.1.log.file 0 payload)
    (hmap : t'.1.log.segmentMap = t.1.log.segmentMap.insert ⟨s.2.nextSegment⟩ m)
    (hcat : t'.2 = t.2.allocateSegment.2) :
    Mirrors (fun x => X x ∨ x = ⟨s.2.nextSegment⟩) s' t' where
  catalog := by
    rw [he.cat, hcat]
    exact h.catalog.allocate
  info := by
    intro x
    rw [hmap, he.info, Table.lookup_insert, Function.update_apply, h.info]
  bare := by
    intro x m' hm'
    rw [he.info, Function.update_apply] at hm'
    split at hm'
    · cases hm'
      exact ⟨ho, hc⟩
    · exact h.bare x m' hm'
  len := by
    intro x m' q hm' hq
    rw [he.info, Function.update_apply] at hm'
    rw [he.seg, Function.update_apply] at hq
    split at hm'
    · rename_i hx
      rw [if_pos hx] at hq
      cases hm'
      cases hq
      exact hl
    · rename_i hx
      rw [if_neg hx] at hq
      exact h.len x m' q hm' hq
  begins := by
    intro x hx q hq
    rw [he.seg, Function.update_apply] at hq
    rw [hfile]
    split at hq
    · cases hq
      rw [writeAt_zero]
      exact List.prefix_append _ _
    · rename_i hne
      obtain hx := hx.resolve_right hne
      exact (hfit x hx q hq).writeAt (h.begins x hx q hq)

/-! ### Writes -/

/-- The payloads of the segments that a capsule lists, and of those in `l`. -/
def InMemory.Held (s : InMemory) (l : List SegmentId) (q : Bytes) : Prop :=
  ∃ x, (s.Lists x ∨ x ∈ l) ∧ s.seg x = some q

/-- What a write has still to store: no view is known, and every payload is comparable with what is
held, and shorter than 2^32 bytes. -/
def Fitting (parts : Parts) (compression : CompressionPolicy) (encryption : EncryptionPolicy) :
    (Bytes → Prop) → (ContentHash → Bool) → Nat → List Bytes → Prop
  | _, _, _, [] => True
  | held, known, next, chunk :: rest =>
    ∀ view summary, parts.compress chunk compression = .ok (view, summary) →
      known (parts.hashContent view) = false ∧
      ∀ payload report, parts.payload encryption view ⟨next⟩ = .ok (payload, report) →
        payload.length < 4294967296 ∧ (∀ q, held q → Comparable payload q) ∧
        Fitting parts compression encryption (fun q => held q ∨ q = payload)
          (Function.update known (parts.hashContent view) true) (next + 1) rest

theorem Fitting.mono {compression : CompressionPolicy} {encryption : EncryptionPolicy} :
    ∀ {chunks : List Bytes} {held held' : Bytes → Prop} {known : ContentHash → Bool} {next : Nat},
      (∀ q, held' q → held q) → Fitting parts compression encryption held known next chunks →
      Fitting parts compression encryption held' known next chunks
  | [], _, _, _, _, _, _ => trivial
  | _ :: _, _, _, _, _, hle, h => by
      intro view summary hc
      obtain ⟨hnew, hfit⟩ := h view summary hc
      refine ⟨hnew, fun payload report hp => ?_⟩
      obtain ⟨hshort, hcomparable, hrest⟩ := hfit payload report hp
      exact ⟨hshort, fun q hq => hcomparable q (hle q hq), hrest.mono fun q => Or.imp_left (hle q)⟩

/-- Between two methods. -/
structure Matched (s : InMemory) (t : OverLog) : Prop where
  owes : Owes [] s
  mirrors : Mirrors s.Lists s t

/-- A write that has stored the segments in `l`. -/
structure HalfWritten (parts : Parts) (compression : CompressionPolicy)
    (encryption : EncryptionPolicy) (l : List SegmentId) (rest : List Bytes) (s : InMemory)
    (t : OverLog) : Prop where
  owes : Owes l s
  mirrors : Mirrors (fun x => s.Lists x ∨ x ∈ l) s t
  fits : Fitting parts compression encryption (s.Held l) s.known s.2.nextSegment rest

theorem HalfWritten.matched {compression : CompressionPolicy} {encryption : EncryptionPolicy}
    {l : List SegmentId} {rest : List Bytes} {t : OverLog}
    (h : HalfWritten parts compression encryption l rest s t) : Matched s t :=
  ⟨h.owes.drop, h.mirrors.mono fun _ => Or.inl⟩

/-- **A chunk that is stored**, and registered under its hash. -/
theorem HalfWritten.stored {compression : CompressionPolicy} {encryption : EncryptionPolicy}
    {l : List SegmentId} {chunk view payload : Bytes} {rest : List Bytes}
    {summary : CompressionSummary} {report : EncryptionSummary} {t t' : OverLog}
    (h : HalfWritten parts compression encryption l (chunk :: rest) s t)
    (hc : parts.compress chunk compression = .ok (view, summary))
    (hp : parts.payload encryption view ⟨s.2.nextSegment⟩ = .ok (payload, report))
    (he : s.Entered payload (.new ⟨s.2.nextSegment⟩ payload summary (parts.hashContent view) report
      encryption.isEnabled) s')
    (hm : Mirrors (fun x => (s.Lists x ∨ x ∈ l) ∨ x = ⟨s.2.nextSegment⟩) s' t') :
    HalfWritten parts compression encryption (l ++ [⟨s.2.nextSegment⟩]) rest
      (s'.1, s'.2.registerContent (parts.hashContent view) ⟨s.2.nextSegment⟩)
      (t'.1, t'.2.registerContent (parts.hashContent view) ⟨s.2.nextSegment⟩) := by
  set hash := parts.hashContent view
  set u : InMemory := (s'.1, s'.2.registerContent hash ⟨s.2.nextSegment⟩) with hu
  obtain ⟨-, hfit⟩ := h.fits view summary hc
  obtain ⟨-, -, hrest⟩ := hfit payload report hp
  have hinfo : s'.info ⟨s.2.nextSegment⟩ = some (.new ⟨s.2.nextSegment⟩ payload summary hash report
      encryption.isEnabled) := by
    rw [he.info]
    exact Function.update_self ..
  have hlists : ∀ y, u.Lists y ↔ s.Lists y := by
    intro y
    rw [InMemory.Lists, InMemory.Lists, hu]
    show (∃ id c, s'.2.capsules.lookup id = some c ∧ _) ↔ _
    rw [he.cat]
  have hmember : ∀ y, u.Lists y ∨ y ∈ l ++ [⟨s.2.nextSegment⟩] →
      (s.Lists y ∨ y ∈ l) ∨ y = ⟨s.2.nextSegment⟩ := by
    intro y hy
    rw [hlists, List.mem_append, List.mem_singleton, ← or_assoc] at hy
    exact hy
  have hcat : u.2.Same (t'.2.registerContent hash ⟨s.2.nextSegment⟩) :=
    hm.catalog.register hash ⟨s.2.nextSegment⟩
  refine ⟨Covered.register (h.owes.enter he rfl) hinfo rfl, (hm.catalogs hcat).mono hmember, ?_⟩
  have hknown : u.known = Function.update s.known hash true := by
    funext hash'
    show ((s'.2.content.insert hash ⟨s.2.nextSegment⟩).lookup hash').isSome = _
    rw [Table.lookup_insert, Function.update_apply, he.cat]
    split <;> rfl
  have hnext : u.2.nextSegment = s.2.nextSegment + 1 := by
    show s'.2.nextSegment = _
    rw [he.cat]
  rw [hknown, hnext]
  refine hrest.mono ?_
  rintro q ⟨y, hy, hq⟩
  have hq : s'.seg y = some q := hq
  rw [he.seg, Function.update_apply] at hq
  split at hq
  · exact .inr (Option.some.inj hq).symm
  · rename_i hne
    exact .inl ⟨y, (hmember y hy).resolve_right hne, hq⟩

namespace Pipeline
open Space.Modular
variable {t : OverLog} {compression : CompressionPolicy} {encryption : EncryptionPolicy}
  {view : Bytes} {summary : CompressionSummary} {hash : ContentHash}

/-- An operation that succeeds on both sides. -/
theorem paired_opOk (o : ModularOp) {Q : o.Res → InMemory → OverLog → Prop}
    {E : InMemory → OverLog → Prop} {a : o.Res} {t' : OverLog} (hs : memory parts o s = (.ok a, s'))
    (ht : overLog parts o t = (.ok a, t')) (hQ : Q a s' t') :
    (perform (S := ModularSig) o).Paired (memory parts) (overLog parts) Q E s t :=
  paired_ok hs ht hQ

/-- An operation that only answers, on both sides the same. -/
theorem paired_opAnswer (o : ModularOp) {Q : o.Res → InMemory → OverLog → Prop}
    {E : InMemory → OverLog → Prop} {r : Except Error o.Res} (hs : memory parts o s = (r, s))
    (ht : overLog parts o t = (r, t)) (hQ : ∀ a, r = .ok a → Q a s t) (hE : E s t) :
    (perform (S := ModularSig) o).Paired (memory parts) (overLog parts) Q E s t :=
  paired_answer hs ht hQ hE

/-- A transaction of the log with one payload staged. -/
def staged (log : NvramLog) (m : Segment) (payload : Bytes) : NvramBackend where
  log := { log with nextOffset := log.nextOffset + payload.length }
  transaction := ⟨⟨[⟨m, payload⟩], log.nextOffset, log.nextOffset + payload.length, false⟩, []⟩

/-- **A payload that is staged** gets its metadata. -/
theorem setSegmentMetadata_staged (log : NvramLog) (c : InMemoryCatalog) (x : SegmentId)
    (payload : Bytes) (m : Segment) :
    overLog parts (.setSegmentMetadata x m)
        (staged log (.appended x log.nextOffset (asU32 payload.length)) payload, c) =
      (.ok (), staged log m payload, c) := by
  have hset : (staged log (.appended x log.nextOffset (asU32 payload.length))
      payload).setSegmentMetadata x m = (.ok (), staged log m payload) := by
    simp [staged, NvramBackend.setSegmentMetadata, NvramTransaction.setSegmentMetadata,
      NvramTransaction.withSegmentMut, NvramTransaction.ensureActive,
      NvramTransaction.modifyPending, Segment.appended, Bind.bind, Except.bind]
  exact congrArg (fun r : Except Error Unit × NvramBackend => (r.1, r.2, c)) hset

/-- The payload of a view is the same, and nothing changes. -/
theorem paired_encryptView {Q : Bytes × EncryptionSummary → InMemory → OverLog → Prop}
    {E : InMemory → OverLog → Prop}
    (hQ : ∀ payload, parts.payload encryption view x = .ok payload → Q payload s t) (hE : E s t) :
    (encryptView id encryption view x).Paired (memory parts) (overLog parts) Q E s t := by
  unfold encryptView
  unfold Parts.payload at hQ
  split at hQ
  · next he =>
      rw [if_pos he]
      refine paired_bind (paired_opAnswer (.deriveKey id x) rfl rfl (fun _ _ => ?_) hE)
      exact paired_opAnswer (.encrypt view encryption x) rfl rfl hQ hE
  · next he =>
      rw [if_neg he]
      exact paired_pure (hQ _ rfl)

/-- **A view is stored** on both sides, or on none. -/
theorem paired_storeSegment (h : Mirrors X s t)
    (hfit : ∀ payload report,
      parts.payload encryption view ⟨s.2.nextSegment⟩ = .ok (payload, report) →
        payload.length < 4294967296 ∧ ∀ x, X x → ∀ q, s.seg x = some q → Comparable payload q) :
    (storeSegment id encryption view summary hash).Paired (memory parts) (overLog parts)
      (fun x s' t' => ∃ payload report,
        parts.payload encryption view ⟨s.2.nextSegment⟩ = .ok (payload, report) ∧
        x = ⟨s.2.nextSegment⟩ ∧ s.Entered payload
          (.new ⟨s.2.nextSegment⟩ payload summary hash report encryption.isEnabled) s' ∧
        Mirrors (fun x => X x ∨ x = ⟨s.2.nextSegment⟩) s' t')
      (fun s' t' => s.Alike s' ∧ Mirrors X s' t') s t := by
  set u : NvramBackend := ⟨t.1.log, ⟨t.1.log.beginTransaction, []⟩⟩
  have hdrop : ∀ (b : InMemoryBackend) (u : NvramBackend), b.segments = s.1.segments →
      b.metadata = s.1.metadata → u.log.file = t.1.log.file →
      u.log.segmentMap = t.1.log.segmentMap → u.transaction.inner.finalized = false →
      dropTxn.Paired (memory parts) (overLog parts)
        (fun _ s' t' => s.Alike s' ∧ Mirrors X s' t') (fun s' t' => s.Alike s' ∧ Mirrors X s' t')
        (b, s.2.allocateSegment.2) (u, t.2.allocateSegment.2) := by
    intro b u hseg hinfo hfile hmap hactive
    have hseg' : InMemory.seg ({ b with transaction := {} }, s.2.allocateSegment.2) = s.seg :=
      funext fun x => congrArg (AList.lookup x) hseg
    have hinfo' : InMemory.info ({ b with transaction := {} }, s.2.allocateSegment.2) = s.info :=
      funext fun x => congrArg (AList.lookup x) hinfo
    refine paired_opOk .dropTxn rfl rfl ⟨⟨hseg', hinfo', rfl, rfl, Nat.le_succ _⟩, ?_⟩
    have hroll : (u.transaction.inner.rollback u.log).2 =
        { u.log with nextOffset := u.transaction.inner.baseOffset } := by
      rw [NvramTransaction.rollback, if_neg (Bool.eq_false_iff.mp hactive)]
    refine h.congr hseg' hinfo' ?_ ?_ h.catalog.allocate
    · exact (congrArg NvramLog.file hroll).trans hfile
    · exact (congrArg NvramLog.segmentMap hroll).trans hmap
  have hallocate : overLog parts .allocateSegment (u, t.2) =
      (.ok ⟨s.2.nextSegment⟩, u, t.2.allocateSegment.2) :=
    Prod.ext (congrArg (fun n => Except.ok (SegmentId.mk n)) h.catalog.next) rfl
  refine paired_bind (paired_opOk .beginTxn rfl rfl (paired_onError ?_))
  refine paired_bind (paired_opOk .allocateSegment rfl hallocate ?_)
  refine paired_bind (paired_encryptView (fun pr hp => ?_) (hdrop _ _ rfl rfl rfl rfl rfl))
  obtain ⟨payload, report⟩ := pr
  obtain ⟨hshort, hcomparable⟩ := hfit payload report hp
  set m : Segment :=
    .new ⟨s.2.nextSegment⟩ payload summary hash report encryption.isEnabled with hm
  have hlen : m.len = payload.length := asU32_of_lt hshort
  refine paired_bind (paired_opOk (.append ⟨s.2.nextSegment⟩ payload) rfl rfl ?_)
  have hstage := @setSegmentMetadata_staged parts t.1.log t.2.allocateSegment.2 ⟨s.2.nextSegment⟩
    payload m
  refine paired_bind (paired_opOk (.setSegmentMetadata ⟨s.2.nextSegment⟩ m) rfl hstage ?_)
  refine paired_bind (paired_opOk .commit rfl rfl ?_)
  have hentered : s.Entered payload m (_, s.2.allocateSegment.2) :=
    ⟨InMemoryBackend.commit_segments_one _, InMemoryBackend.commit_metadata_one _, rfl⟩
  refine paired_pure ⟨payload, report, hp, rfl, hentered, ?_⟩
  exact h.enter hentered rfl rfl hlen hcomparable rfl rfl rfl

/-- **One segment of the plan.** -/
theorem paired_writeSegment {seg : SegmentRef} {st : WriteState} {rest : List Bytes}
    (h : HalfWritten parts compression encryption st.segmentIds (seg.chunk data :: rest) s t) :
    (writeSegment id data compression encryption st seg).Paired (memory parts) (overLog parts)
      (fun st' s' t' => HalfWritten parts compression encryption st'.segmentIds rest s' t') Matched
      s t := by
  rw [writeSegment]
  dsimp only
  split
  · exact paired_fail h.matched
  refine paired_bind (paired_opAnswer (.compress (seg.chunk data) compression) rfl rfl
    (fun vs hc => ?_) h.matched)
  obtain ⟨view, summary⟩ := vs
  obtain ⟨hnew, hfit⟩ := h.fits view summary hc
  set hash : ContentHash := parts.hashContent view with hhash
  have hnone : s.content hash = none := Option.not_isSome_iff_eq_none.mp
    (Bool.eq_false_iff.mp hnew)
  refine paired_bind (paired_opAnswer (.hashContent view) (r := .ok hash) rfl rfl
    (fun hash' he => ?_) h.matched)
  obtain rfl := Except.ok.inj he
  have hmemory : memory parts (.lookupContent hash) s = (.ok none, s) :=
    congrArg (fun r => (Except.ok r, s)) hnone
  have hlog : overLog parts (.lookupContent hash) t = (.ok none, t) :=
    congrArg (fun r => (Except.ok r, t)) ((h.mirrors.catalog.content hash).trans hnone)
  refine paired_bind (paired_opOk (.lookupContent hash) hmemory hlog ?_)
  refine paired_bind (paired_mono (paired_storeSegment h.mirrors fun payload report hp => ?_) ?_ ?_)
  · obtain ⟨hshort, hcomparable, -⟩ := hfit payload report hp
    exact ⟨hshort, fun x hx q hq => hcomparable q ⟨x, hx, hq⟩⟩
  · rintro x s₁ t₁ ⟨payload, report, hp, rfl, he, hm⟩
    obtain ⟨hshort, hcomparable, hrest⟩ := hfit payload report hp
    have hw := h.stored hc hp he hm
    refine paired_bind (paired_opOk (.registerContent hash ⟨s.2.nextSegment⟩) rfl rfl ?_)
    refine paired_bind (paired_opAnswer (.dedupRegister hash ⟨s.2.nextSegment⟩) rfl rfl
      (fun _ _ => ?_) hw.matched)
    exact paired_bind (paired_opOk (.recordStats summary.outputSize false) rfl rfl
      (paired_pure hw))
  · rintro s₁ t₁ ⟨ha, hm⟩
    refine ⟨(h.owes.alike ha).drop, hm.mono fun y hy => .inl ?_⟩
    rw [InMemory.Lists, ha.capsules] at hy
    exact hy

/-- What is asked of a write between two methods. -/
def Fits (parts : Parts) (data : Bytes) (policy : Policy) (s : InMemory) : Prop :=
  ∀ compression encryption, parts.evaluateCompression policy (data.take 1024) = .ok compression →
    parts.evaluateEncryption policy = .ok encryption →
    Fitting parts compression encryption (s.Held []) s.known s.2.nextSegment
      (plannedChunks policy data)

/-- **A write that fits**. -/
theorem paired_writeCapsule (h : Matched s t) (hf : Fits parts data policy s) :
    (writeCapsule id data policy).Paired (memory parts) (overLog parts) (fun _ => Matched) Matched
      s t := by
  refine paired_bind (paired_opAnswer (.evaluateCompression policy (data.take 1024)) rfl rfl
    (fun compression hc => ?_) h)
  refine paired_bind (paired_lift (fun zones hz => ?_) h)
  refine paired_bind (paired_opAnswer (.evaluateEncryption policy) rfl rfl
    (fun encryption hen => ?_) h)
  have hstart : HalfWritten parts compression encryption []
      ((zones.flatMap Zone.segments).map fun seg => seg.chunk data) s t := by
    refine ⟨h.owes, h.mirrors.mono fun x hx => ?_, ?_⟩
    · exact hx.resolve_right List.not_mem_nil
    · rw [← plannedChunks_ok hz]
      exact hf compression encryption hc hen
  refine paired_bind (paired_mono (paired_foldlM (fun rest st => HalfWritten parts compression
    encryption st.segmentIds (rest.map fun seg => seg.chunk data))
      (fun seg rest st s t => paired_writeSegment) _ _ _ _ hstart) ?_ fun _ _ hm => hm)
  intro st s₁ t₁ hw
  refine paired_bind (paired_opOk (.createCapsule id data.length policy st.segmentIds st.dedupStats)
    rfl rfl (paired_pure ⟨hw.owes.create, ?_⟩))
  refine (hw.mirrors.catalogs (hw.mirrors.catalog.create id data.length policy st.segmentIds
    st.dedupStats)).mono ?_
  rintro x ⟨id', c, hc, hx⟩
  rcases Table.lookup_insert_eq_some.mp hc with ⟨rfl, rfl⟩ | ⟨-, hc⟩
  · exact .inr hx
  · exact .inl ⟨id', c, hc, hx⟩

/-! ### Reads and deletes -/

/-- A segment is there on both sides, or on none. -/
theorem paired_metadata {Q : Segment → InMemory → OverLog → Prop} {E : InMemory → OverLog → Prop}
    (h : Mirrors X s t) (hQ : ∀ m, s.info x = some m → Q m s t) (hE : s.info x = none → E s t) :
    (metadata x).Paired (memory parts) (overLog parts) Q E s t := by
  have hinfo := h.info x
  cases hm : s.info x with
  | none =>
      have hlog : overLog parts (.metadata x) t =
          (.error (.msg ("Segment not found: " ++ x.debug)), t) := by
        show (t.1.log.getSegmentMetadata x, t) = _
        rw [NvramLog.getSegmentMetadata, hinfo, hm]
        rfl
      exact paired_error (exec_metadata_none hm parts) hlog (hE hm)
  | some m =>
      have hlog : overLog parts (.metadata x) t = (.ok m, t) := by
        show (t.1.log.getSegmentMetadata x, t) = _
        rw [NvramLog.getSegmentMetadata, hinfo, hm]
        rfl
      exact paired_opOk (.metadata x) (exec_metadata hm parts) hlog (hQ m hm)

/-- **A segment that a capsule lists** reads the same. -/
theorem paired_readSegment (h : Matched s t) (hx : s.Lists x) (policy : Policy) :
    (readSegment policy x).Paired (memory parts) (overLog parts) (fun _ s' t' => s' = s ∧ t' = t)
      (fun s' t' => s' = s ∧ t' = t) s t := by
  refine paired_bind (paired_metadata h.mirrors (fun m hm => ?_) fun _ => ⟨rfl, rfl⟩)
  obtain ⟨q, hq⟩ := Option.isSome_iff_exists.mp
    ((h.owes.stored x).trans (Option.isSome_of_eq_some hm))
  have hmemory : memory parts (.read x) s = (.ok q, s) := by
    have hq : s.1.segments.lookup x = some q := hq
    show (InMemoryBackend.storage.read x s.1, s) = _
    simp only [InMemoryBackend.storage, hq]
    rfl
  have hlog : overLog parts (.read x) t = (.ok q, t) :=
    congrArg (fun r => (r, t)) (h.mirrors.read hx hm hq)
  refine paired_bind (paired_opOk (.read x) hmemory hlog ?_)
  have hlast : ∀ decrypted : Bytes, (if m.compressed then
      decompress decrypted m.compressionAlgo else pure decrypted : Modular Bytes).Paired
        (memory parts) (overLog parts) (fun _ s' t' => s' = s ∧ t' = t)
        (fun s' t' => s' = s ∧ t' = t) s t := by
    intro decrypted
    split
    · exact paired_opAnswer (.decompress decrypted m.compressionAlgo) rfl rfl
        (fun _ _ => ⟨rfl, rfl⟩) ⟨rfl, rfl⟩
    · exact paired_pure ⟨rfl, rfl⟩
  show (if m.encrypted then _ else _ : Modular Bytes).Paired _ _ _ _ _ _
  by_cases he : m.encrypted = true
  · rw [if_pos he]
    exact paired_bind (paired_opAnswer (.decrypt q policy.encryption x) rfl rfl
      (fun decrypted _ => hlast decrypted) ⟨rfl, rfl⟩)
  · rw [if_neg he]
    exact hlast q

/-- A capsule is there on both sides, or on none. -/
theorem paired_lookupCapsule {Q : Capsule → InMemory → OverLog → Prop}
    {E : InMemory → OverLog → Prop} (h : Mirrors X s t)
    (hQ : ∀ capsule, s.2.capsules.lookup id = some capsule → Q capsule s t) (hE : E s t) :
    (lookupCapsule id).Paired (memory parts) (overLog parts) Q E s t := by
  have hlookup : overLog parts (.lookupCapsule id) t = (s.2.lookupCapsule id, t) :=
    congrArg (fun r => (r, t)) (h.catalog.lookupCapsule id)
  refine paired_opAnswer (.lookupCapsule id) rfl hlookup (fun capsule hc => hQ capsule ?_) hE
  rw [InMemoryCatalog.lookupCapsule] at hc
  cases hcap : s.2.capsules.lookup id with
  | none =>
      rw [hcap] at hc
      cases hc
  | some c =>
      rw [hcap] at hc
      exact congrArg some (Except.ok.inj hc)

/-- **A read.** -/
theorem paired_readCapsule (h : Matched s t) (id : CapsuleId) :
    (readCapsule id).Paired (memory parts) (overLog parts) (fun _ => Matched) Matched s t := by
  refine paired_bind (paired_lookupCapsule h.mirrors (fun capsule hc => ?_) h)
  have hlists : ∀ x ∈ capsule.segments, s.Lists x := fun x hx => ⟨id, capsule, hc, hx⟩
  refine paired_mono (paired_foldlM (E := fun s' t' => s' = s ∧ t' = t)
    (fun rest _ s' t' => (∀ x ∈ rest, s.Lists x) ∧ s' = s ∧ t' = t) ?_ _ _ _ _
    ⟨hlists, rfl, rfl⟩) ?_ ?_
  · rintro x rest output s' t' ⟨hrest, rfl, rfl⟩
    refine paired_bind (paired_mono (paired_readSegment h (hrest x List.mem_cons_self) _) ?_
      fun _ _ he => he)
    rintro data s₁ t₁ ⟨rfl, rfl⟩
    exact paired_pure ⟨fun y hy => hrest y (List.mem_cons_of_mem _ hy), rfl, rfl⟩
  · rintro _ _ _ ⟨-, rfl, rfl⟩
    exact h
  · rintro _ _ ⟨rfl, rfl⟩
    exact h

/-- **A reference is taken back**, and the segment goes. -/
theorem paired_releaseSegment (h : Mirrors X s t) :
    (releaseSegment x).Paired (memory parts) (overLog parts)
      (fun _ s' t' => s'.2.capsules = s.2.capsules ∧ Mirrors X s' t')
      (fun s' t' => s'.2.capsules = s.2.capsules ∧ Mirrors X s' t') s t := by
  refine paired_bind (paired_metadata h (fun m hm => ?_) fun _ => ⟨rfl, h⟩)
  have hone : ¬ 1 < m.refCount := by
    rw [(h.bare x m hm).2]
    exact Nat.lt_irrefl 1
  rw [if_neg hone]
  have hgone : ∀ {c c' : InMemoryCatalog}, c.Same c' →
      Mirrors X ({ s.1 with segments := s.1.segments.erase x, metadata := s.1.metadata.erase x }, c)
        ({ t.1 with log := (t.1.log.removeSegment x).2 }, c') := by
    intro c c' hc
    refine h.remove [x] (fun y => ?_) (fun y => ?_) (NvramLog.removeSegment_file _ _)
      (fun y => ?_) hc
    · exact (Table.lookup_erase ..).trans (if_congr List.mem_singleton.symm rfl rfl)
    · exact (Table.lookup_erase ..).trans (if_congr List.mem_singleton.symm rfl rfl)
    · exact (NvramLog.removeSegment_lookup ..).trans (if_congr List.mem_singleton.symm rfl rfl)
  refine paired_bind (paired_opOk (.delete x) rfl rfl ?_)
  cases m.contentHash with
  | none => exact paired_pure ⟨rfl, hgone h.catalog⟩
  | some hash =>
      obtain ⟨hres, hcat⟩ := h.catalog.deregister hash x
      refine paired_discard (paired_opOk (.deregisterContent hash x) rfl
        (congrArg (fun r => (Except.ok r, _, _)) hres) ⟨?_, hgone hcat⟩)
      exact (capsules_deregister s.2 hash).1

/-- **A delete.** -/
theorem paired_deleteCapsule (h : Matched s t) (id : CapsuleId) :
    (deleteCapsule id).Paired (memory parts) (overLog parts) (fun _ => Matched) Matched s t := by
  have hlists : ∀ {c : InMemoryCatalog}, c.capsules = s.2.capsules → ∀ {b : InMemoryBackend} {x},
      InMemory.Lists (b, c) x → s.Lists x := by
    rintro c hc b x ⟨id, capsule, hcap, hx⟩
    exact ⟨id, capsule, hc ▸ hcap, hx⟩
  have hpaired : (deleteCapsule id).Paired (memory parts) (overLog parts)
      (fun _ s' t' => Mirrors s'.Lists s' t') (fun s' t' => Mirrors s'.Lists s' t') s t := by
    refine paired_bind (paired_lookupCapsule h.mirrors (fun capsule hc => ?_) h.mirrors)
    refine paired_bind (paired_mono (paired_foldlM
      (fun _ _ s' t' => s'.2.capsules = s.2.capsules ∧ Mirrors s.Lists s' t')
      (E := fun s' t' => s'.2.capsules = s.2.capsules ∧ Mirrors s.Lists s' t') ?_ _ _ _ _
      ⟨rfl, h.mirrors⟩) ?_ ?_)
    · rintro x rest - s₁ t₁ ⟨hcap, hm⟩
      refine paired_mono (paired_releaseSegment hm) ?_ ?_
      · rintro - s₂ t₂ ⟨hcap₂, hm₂⟩
        exact ⟨hcap₂.trans hcap, hm₂⟩
      · rintro s₂ t₂ ⟨hcap₂, hm₂⟩
        exact ⟨hcap₂.trans hcap, hm₂⟩
    · rintro - s₁ t₁ ⟨hcap, hm⟩
      obtain ⟨hres, hcat⟩ := hm.catalog.delete id
      have herase : (s₁.2.deleteCapsule id) =
          (.ok capsule, { s₁.2 with capsules := s.2.capsules.erase id }) := by
        rw [InMemoryCatalog.deleteCapsule, hcap, hc]
      rw [herase] at hres hcat
      refine paired_discard (paired_opOk (.deleteCapsule id)
        (congrArg (fun r => (r.1, s₁.1, r.2)) herase)
        (congrArg (fun r => (r, t₁.1, (t₁.2.deleteCapsule id).2)) hres) ?_)
      refine (hm.catalogs hcat).mono ?_
      rintro x ⟨id', c, hc', hx⟩
      exact ⟨id', c, (Table.lookup_erase_eq_some.mp hc').2, hx⟩
    · rintro s₁ t₁ ⟨hcap, hm⟩
      exact hm.mono fun x hx => hlists hcap hx
  refine paired_mono (paired_left (R := fun _ s' => Owes [] s') hpaired
    ((wp_deleteCapsule h.owes).run parts)) ?_ ?_
  · rintro - s' t' ⟨hm, ho⟩
    exact ⟨ho, hm⟩
  · rintro s' t' ⟨hm, -, ho⟩
    exact ⟨ho, hm⟩

/-! ### Collections -/

/-- A collection, once it has the lists. -/
def collectAll (capsules : List Capsule) (entries : List (ContentHash × SegmentId))
    (segments : List SegmentId) : Modular Nat :=
  inTxn do
    let reclaimed ← segments.foldlM
      (collectSegment (capsules.flatMap Capsule.segments) (contentMapOf entries)) 0
    commit
    return reclaimed

theorem garbageCollect_run {β : Type} (storage : StorageBackend β) (capsuleOrd : Order Capsule)
    (contentOrd : Order (ContentHash × SegmentId)) (segmentOrd : Order SegmentId)
    (s : β × InMemoryCatalog) :
    (garbageCollect capsuleOrd contentOrd segmentOrd).run (ModularOp.exec parts storage) s =
      (collectAll (capsuleOrd.reorder s.2.capsules.values) (s.2.contentEntries contentOrd)
        (storage.segmentIds segmentOrd s.1)).run (ModularOp.exec parts storage) s := rfl

/-- A collection on both sides, with the same segments to delete. -/
structure Sweeping (X : SegmentId → Prop) (s : InMemory) (t : OverLog) (s' : InMemory)
    (t' : OverLog) : Prop where
  staged : ∃ gone, s'.1 = { s.1 with transaction := { deleted := gone } } ∧
    t'.1 = ⟨t.1.log, ⟨t.1.log.beginTransaction, gone⟩⟩
  mirrors : Mirrors X s' t'

/-- One segment is seen. -/
theorem paired_collectSegment {referenced : List SegmentId}
    {contentMap : Table SegmentId ContentHash} {n : Nat} {s₁ : InMemory} {t₁ : OverLog}
    (h : Sweeping X s t s₁ t₁) :
    (collectSegment referenced contentMap n x).Paired (memory parts) (overLog parts)
      (fun _ => Sweeping X s t) (fun _ _ => False) s₁ t₁ := by
  refine paired_attempt (q := pure n) (fun _ => rfl)
    (paired_metadata h.mirrors (fun m hm => ?_) fun _ => paired_pure h)
  dsimp only
  split
  · exact paired_pure h
  obtain ⟨gone, hs, ht⟩ := h.staged
  have hdeleted : ∀ {c c' : InMemoryCatalog}, c.Same c' →
      Sweeping X s t (InMemoryBackend.storage.txnDelete x s₁.1, c)
        (NvramBackend.storage.txnDelete x t₁.1, c') := by
    intro c c' hc
    refine ⟨⟨gone ++ [x], ?_, ?_⟩, h.mirrors.congr rfl rfl rfl rfl hc⟩
    · rw [hs]
      rfl
    · rw [ht]
      rfl
  refine paired_bind (paired_opOk (.txnDelete x) rfl rfl ?_)
  cases contentMap.lookup x with
  | none => exact paired_pure (hdeleted h.mirrors.catalog)
  | some hash =>
      obtain ⟨hres, hcat⟩ := h.mirrors.catalog.deregister hash x
      refine paired_bind (paired_discard (paired_opOk (.deregisterContent hash x) rfl
        (congrArg (fun r => (Except.ok r, _, _)) hres) ?_))
      exact paired_pure (hdeleted hcat)

/-- **A collection** of the same lists. -/
theorem paired_collectAll (capsules : List Capsule) (entries : List (ContentHash × SegmentId))
    (segments : List SegmentId) (h : Mirrors X s t) :
    (collectAll capsules entries segments).Paired (memory parts) (overLog parts)
      (fun _ => Mirrors X) (fun _ _ => False) s t := by
  have hstart : Sweeping X s t ({ s.1 with transaction := {} }, s.2)
      ({ t.1 with transaction := ⟨t.1.log.beginTransaction, []⟩ }, t.2) :=
    ⟨⟨[], rfl, rfl⟩, h.congr rfl rfl rfl rfl h.catalog⟩
  refine paired_bind (paired_opOk .beginTxn rfl rfl (paired_onError ?_))
  refine paired_mono (E := fun _ _ => False) (paired_bind (paired_mono (paired_foldlM
    (fun _ _ => Sweeping X s t) (fun x _ n s₁ t₁ => paired_collectSegment) _ _ _ _ hstart) ?_
    fun _ _ he => he)) (fun _ _ _ hq => hq) fun _ _ he => he.elim
  intro n s₁ t₁ hw
  obtain ⟨gone, hs, ht⟩ := hw.staged
  refine paired_bind (paired_opOk .commit rfl rfl (paired_pure ?_))
  obtain ⟨hfile, hmap⟩ := NvramLog.removeAll gone t.1.log
  have hlog : t₁.1.commit.log = gone.foldl (fun log x => (log.removeSegment x).2) t.1.log := by
    rw [ht]
    rfl
  refine h.remove gone (fun x => ?_) (fun x => ?_) ?_ (fun x => ?_) hw.mirrors.catalog
  · refine (InMemoryBackend.lookup_commit_segments _ x).trans ?_
    rw [hs]
    rfl
  · refine (InMemoryBackend.lookup_commit_metadata _ x).trans ?_
    rw [hs]
    rfl
  · exact (congrArg NvramLog.file hlog).trans hfile
  · exact (congrArg (fun log : NvramLog => log.segmentMap.lookup x) hlog).trans (hmap x)

/-- Two collections of one store leave the same. -/
theorem Collected.mirrors {s₁ s₂ : InMemory} (h₁ : Collected s s₁) (h₂ : Collected s s₂)
    (hm : Mirrors X s₂ t) : Mirrors X s₁ t := by
  have hseg : s₁.seg = s₂.seg := by
    funext x
    by_cases hx : s.Lists x
    · rw [h₁.seg x hx, h₂.seg x hx]
    · rw [(h₁.gone x hx).1, (h₂.gone x hx).1]
  have hinfo : s₁.info = s₂.info := by
    funext x
    by_cases hx : s.Lists x
    · rw [h₁.info x hx, h₂.info x hx]
    · rw [(h₁.gone x hx).2, (h₂.gone x hx).2]
  refine hm.congr hseg hinfo rfl rfl ⟨?_, fun id => ?_, fun hash => ?_⟩
  · rw [hm.catalog.next, h₁.next, h₂.next]
  · rw [hm.catalog.capsules, h₁.capsules, h₂.capsules]
  · rw [hm.catalog.content]
    exact Option.ext fun x => (h₂.content hash x).trans (h₁.content hash x).symm

/-- **A collection**, whatever the orders in which the two list what they have. -/
theorem garbageCollect_matched (h : Matched s t) (capsuleOrd capsuleOrd' : Order Capsule)
    (contentOrd contentOrd' : Order (ContentHash × SegmentId))
    (segmentOrd segmentOrd' : Order SegmentId) :
    ∃ n s' n' t', (garbageCollect capsuleOrd contentOrd segmentOrd).run (memory parts) s =
        (.ok n, s') ∧
      (garbageCollect capsuleOrd' contentOrd' segmentOrd').run (overLog parts) t = (.ok n', t') ∧
      Matched s' t' := by
  obtain ⟨n, hn, hc⟩ := (@wp_garbageCollect s capsuleOrd contentOrd segmentOrd h.owes).run parts
  -- what the log lists is what the other storage would list in some other order
  obtain ⟨capsuleOrd₂, hcapsules⟩ :=
    Order.exists_reorder (capsuleOrd'.reorder t.2.capsules.values)
  obtain ⟨contentOrd₂, hentries⟩ := Order.exists_reorder (t.2.contentEntries contentOrd')
  obtain ⟨segmentOrd₂, hsegments⟩ :=
    Order.exists_reorder (NvramBackend.storage.segmentIds segmentOrd' t.1)
  have hrun : (garbageCollect capsuleOrd₂ contentOrd₂ segmentOrd₂).run (memory parts) s =
      (collectAll (capsuleOrd'.reorder t.2.capsules.values) (t.2.contentEntries contentOrd')
        (NvramBackend.storage.segmentIds segmentOrd' t.1)).run (memory parts) s := by
    rw [garbageCollect_run, hcapsules, InMemoryCatalog.contentEntries, hentries]
    · refine congrArg (fun l => (collectAll _ _ l).run (memory parts) s) (hsegments _ ?_)
      exact ((Table.entries_perm h.mirrors.info).map Sigma.fst).symm.trans
        (segmentOrd'.perm _).symm
    · exact (((Table.entries_perm h.mirrors.catalog.content).map _).symm).trans
        (contentOrd'.perm _).symm
    · exact (((Table.entries_perm h.mirrors.catalog.capsules).map Sigma.snd).symm).trans
        (capsuleOrd'.perm _).symm
  obtain ⟨n₂, -, hc₂⟩ :=
    (@wp_garbageCollect s capsuleOrd₂ contentOrd₂ segmentOrd₂ h.owes).run parts
  rw [hrun] at hc₂
  have hpaired : (collectAll (capsuleOrd'.reorder t.2.capsules.values)
      (t.2.contentEntries contentOrd') (NvramBackend.storage.segmentIds segmentOrd' t.1)).Paired
      (memory parts) (overLog parts) (fun _ => Mirrors s.Lists) (fun _ _ => False) s t :=
    paired_collectAll _ _ _ h.mirrors
  obtain ⟨a, s₂, t', hs, ht, hm⟩ | ⟨_, _, _, _, _, _, hfalse⟩ := hpaired
  · rw [hs] at hc₂
    refine ⟨n, _, a, t', Prod.ext hn rfl, (garbageCollect_run ..).trans ht, hc.owes h.owes, ?_⟩
    exact (hc.mirrors hc₂ hm).mono fun x hx => hc.lists.mp hx
  · exact hfalse.elim

end Pipeline

/-! ### Runs -/

/-- The orders in which a collection lists the capsules, the entries and the segments. -/
abbrev Traversals := Order Capsule × Order (ContentHash × SegmentId) × Order SegmentId

/-- The methods of the pipeline. -/
inductive BackendCall where
  | write (id : CapsuleId) (data : Bytes) (policy : Policy)
  | read (id : CapsuleId)
  | delete (id : CapsuleId)
  | collect

namespace BackendCall

/-- A method; only a read answers with bytes. -/
def program (ord : Traversals) : BackendCall → Modular Bytes
  | write id data policy => do
      let _ ← Pipeline.writeCapsule id data policy
      return []
  | read id => Pipeline.readCapsule id
  | delete id => do
      Pipeline.deleteCapsule id
      return []
  | collect => do
      let _ ← Pipeline.garbageCollect ord.1 ord.2.1 ord.2.2
      return []

/-- A write is not encrypted, and its payloads are shorter than 2^32 bytes. -/
def Plain (parts : Parts) : BackendCall → Prop
  | write _ data policy =>
      (∀ encryption, parts.evaluateEncryption policy = .ok encryption →
        encryption.isEnabled = false) ∧
      ∀ chunk ∈ plannedChunks policy data, ∀ compression view summary,
        parts.compress chunk compression = .ok (view, summary) → view.length < 4294967296
  | _ => True

/-- A write fits. -/
def Fits (parts : Parts) : BackendCall → InMemory → Prop
  | write _ data policy, s => Pipeline.Fits parts data policy s
  | _, _ => True

end BackendCall

/-- The same calls on both sides, those that `A` allows; each side lists what it has in an order of
its own. -/
inductive BothRun (parts : Parts) (A : BackendCall → InMemory → Prop) : InMemory → OverLog → Prop
  | start : BothRun parts A .empty .empty
  | call {s : InMemory} {t : OverLog} (c : BackendCall) (ord ord' : Traversals)
      (h : BothRun parts A s t) (hc : A c s) :
      BothRun parts A ((c.program ord).run (memory parts) s).2
        ((c.program ord').run (overLog parts) t).2

/-- The metadata, wherever the segment is. -/
def Segment.unplaced (m : Segment) : Segment := { m with offset := 0 }

/-- The two are the same to a caller: the capsules, the metadata up to the offset, and the outcome
of the next call. -/
structure Agree (parts : Parts) (A : BackendCall → InMemory → Prop) (s : InMemory) (t : OverLog) :
    Prop where
  capsules : ∀ id, t.2.capsules.lookup id = s.2.capsules.lookup id
  metadata : ∀ x, (t.1.log.segmentMap.lookup x).map Segment.unplaced =
    (s.info x).map Segment.unplaced
  outcome : ∀ c ord ord', A c s → Alike ((c.program ord).run (memory parts) s).1
    ((c.program ord').run (overLog parts) t).1

theorem Matched.start : Matched .empty .empty where
  owes := ModularRun.start.owes
  mirrors := .start

/-- What a pair of runs says, where both outcomes are followed by the same. -/
theorem Matched.of_paired {t : OverLog} {α : Type} {p : Modular α}
    (hp : p.Paired (memory parts) (overLog parts) (fun _ => Matched) Matched s t) :
    Alike (p.run (memory parts) s).1 (p.run (overLog parts) t).1 ∧
      Matched (p.run (memory parts) s).2 (p.run (overLog parts) t).2 := by
  obtain ⟨hr, ⟨-, -, hm⟩ | hm⟩ := hp.run
  · exact ⟨hr, hm⟩
  · exact ⟨hr, hm⟩

/-- **A call** that fits has the same outcome on both sides, and keeps them matched. -/
theorem Matched.call {t : OverLog} (h : Matched s t) {c : BackendCall} (hc : c.Fits parts s)
    (ord ord' : Traversals) :
    Alike ((c.program ord).run (memory parts) s).1 ((c.program ord').run (overLog parts) t).1 ∧
      Matched ((c.program ord).run (memory parts) s).2
        ((c.program ord').run (overLog parts) t).2 := by
  cases c with
  | write id data policy =>
      exact Matched.of_paired (paired_bind (paired_mono (Pipeline.paired_writeCapsule h hc)
        (fun _ _ _ hm => paired_pure hm) fun _ _ hm => hm))
  | read id => exact Matched.of_paired (Pipeline.paired_readCapsule h id)
  | delete id =>
      exact Matched.of_paired (paired_bind (paired_mono (Pipeline.paired_deleteCapsule h id)
        (fun _ _ _ hm => paired_pure hm) fun _ _ hm => hm))
  | collect =>
      obtain ⟨n, s', n', t', hs, ht, hm⟩ := @Pipeline.garbageCollect_matched parts s t h ord.1
        ord'.1 ord.2.1 ord'.2.1 ord.2.2 ord'.2.2
      have hmemory : ((BackendCall.collect.program ord).run (memory parts) s) = (.ok [], s') := by
        rw [BackendCall.program, run_bind, hs]
        rfl
      have hlog : ((BackendCall.collect.program ord').run (overLog parts) t) = (.ok [], t') := by
        rw [BackendCall.program, run_bind, ht]
        rfl
      rw [hmemory, hlog]
      exact ⟨.inl ⟨[], rfl, rfl⟩, hm⟩

theorem BothRun.matched {t : OverLog} (h : BothRun parts (BackendCall.Fits parts) s t) :
    Matched s t := by
  induction h with
  | start => exact .start
  | call c ord ord' _ hc ih => exact (ih.call hc ord ord').2

/-- **The two agree** after every run of writes that fit, reads, deletes and collections: they have
the same capsules and the same metadata, and the next call, if it fits, has the same outcome: on
both sides the same bytes, or on both sides an error. -/
theorem backends_agree {t : OverLog} (h : BothRun parts (BackendCall.Fits parts) s t) :
    Agree parts (BackendCall.Fits parts) s t where
  capsules := h.matched.mirrors.catalog.capsules
  metadata := fun x => congrArg (Option.map Segment.unplaced) (h.matched.mirrors.info x)
  outcome := fun _ ord ord' hc => (h.matched.call hc ord ord').1

/-- A segment for every four bytes. -/
def fourwise : Policy := { layout := { strategy := .fixed 4 } }

/-- Orders that change nothing. -/
def Traversals.asGiven : Traversals := (.asGiven, .asGiven, .asGiven)

/-- A first write, on both sides. -/
def firstWrite : InMemory × OverLog :=
  let p := (BackendCall.write ⟨0⟩ [1] fourwise).program .asGiven
  ((p.run (memory refusing) .empty).2, (p.run (overLog refusing) .empty).2)

theorem firstWrite_run {A : BackendCall → InMemory → Prop}
    (hA : A (.write ⟨0⟩ [1] fourwise) .empty) :
    BothRun refusing A firstWrite.1 firstWrite.2 :=
  .call (.write ⟨0⟩ [1] fourwise) .asGiven .asGiven .start hA

/-- What the first write has stored. -/
theorem firstWrite_seg {q : Bytes} (h : firstWrite.1.seg x = some q) : q = [1] := by
  have hsegments : firstWrite.1.1.segments =
      (∅ : Table SegmentId Bytes).insert (⟨0⟩ : SegmentId) ([1] : Bytes) :=
    AList.ext (by decide +kernel)
  unfold InMemory.seg at h
  rw [hsegments, Table.lookup_insert] at h
  split at h
  · exact (Option.some.inj h).symm
  · cases h

theorem fits_fourwise {data : Bytes} {s : InMemory} (hplan : plannedChunks fourwise data = [data])
    (hdata : data.length < 4294967296) (hnew : s.known ⟨data⟩ = false)
    (hheld : ∀ q, s.Held [] q → Comparable data q) :
    Pipeline.Fits refusing data fourwise s := by
  intro compression encryption hc hen
  cases hc
  cases hen
  rw [hplan]
  intro view summary hcompress
  have hview : view = data := by
    have hcompress : (if data = [2] then .error (.msg "refused") else
      .ok (data, ⟨data.length, data.length, "none", false, true, none⟩) :
        Except Error (Bytes × CompressionSummary)) = .ok (view, summary) := hcompress
    split at hcompress
    · cases hcompress
    · cases hcompress
      rfl
  subst hview
  refine ⟨hnew, fun payload report hp => ?_⟩
  cases hp
  exact ⟨hdata, hheld, trivial⟩

/-- Two writes of which the second begins like the first. -/
theorem backends_agree_twice : ∃ s t, BothRun refusing (BackendCall.Fits refusing) s t ∧
    s.2.capsules.keys = [⟨1⟩, ⟨0⟩] ∧ Agree refusing (BackendCall.Fits refusing) s t := by
  have hfirst : BothRun refusing (BackendCall.Fits refusing) firstWrite.1 firstWrite.2 := by
    refine firstWrite_run (fits_fourwise (by decide +kernel) (by decide) rfl ?_)
    rintro q ⟨x, -, hq⟩
    cases hq
  have hsecond : BackendCall.Fits refusing (.write ⟨1⟩ [1, 3] fourwise) firstWrite.1 := by
    refine fits_fourwise (by decide +kernel) (by decide) (by decide +kernel) ?_
    rintro q ⟨x, -, hq⟩
    rw [firstWrite_seg hq]
    exact .inr ⟨[3], rfl⟩
  have hrun := BothRun.call _ Traversals.asGiven Traversals.asGiven hfirst hsecond
  exact ⟨_, _, hrun, by decide +kernel, backends_agree hrun⟩

/-- **Not where the same data is written again**: in memory the second write shares the segment,
over the log it fails. -/
theorem not_backends_agree : ¬ ∀ (parts : Parts) (s : InMemory) (t : OverLog),
    BothRun parts (fun c _ => c.Plain parts) s t → Agree parts (fun c _ => c.Plain parts) s t := by
  intro hall
  have hplain : ∀ id, (BackendCall.write id [1] fourwise).Plain refusing := by
    refine fun id => ⟨fun encryption he => ?_, fun chunk hchunk compression view summary hc => ?_⟩
    · cases he
      rfl
    · rw [show plannedChunks fourwise [1] = [[1]] by decide +kernel] at hchunk
      obtain rfl := List.mem_singleton.mp hchunk
      cases hc
      decide
  have hagree := hall refusing firstWrite.1 firstWrite.2 (firstWrite_run (hplain ⟨0⟩))
  have hmemory : (((BackendCall.write ⟨1⟩ [1] fourwise).program .asGiven).run (memory refusing)
      firstWrite.1).1 = .ok [] := by decide +kernel
  have hlog : (((BackendCall.write ⟨1⟩ [1] fourwise).program .asGiven).run (overLog refusing)
      firstWrite.2).1 = .error (.msg "pending segment SegmentId(0) not found") := by
    decide +kernel
  have halike := hagree.outcome (.write ⟨1⟩ [1] fourwise) .asGiven .asGiven (hplain ⟨1⟩)
  rw [hmemory, hlog] at halike
  rcases halike with ⟨a, -, h⟩ | ⟨e, e', h, -⟩
  · cases h
  · cases h

end Space
