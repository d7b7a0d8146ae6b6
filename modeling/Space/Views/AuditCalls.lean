import Space.Native.Sizes
import Space.Views.AuditTrail

/-!
# Views — AuditCalls

What each call of the pipeline owes to the audit log on its way, and that it has reported what it
did when it ends.

* `StoreOp.Quiet`: an operation after which a call owes what it owed; `wp_quiet`, a program of them.
* `AuditTrail.settles`: every call ends as it should.
* `AuditTrail.conduct`: so `AuditTrail.Inv` holds at every moment of every run.
-/

namespace Space
open Support Prog

variable {ι : Type} {P : Primitives} {mlkem : Option MlkemKeyManager} {C : AuditCodec AuditEvent}
  {kept : Prop}

/-! ### Operations that leave nothing to report -/

/-- An operation that a call may always do, and that leaves nothing to report but segments, where
the call has them reported. -/
structure StoreOp.Quiet (P : Primitives) (c : AuditedCall) (o : StoreOp) : Prop where
  may : ∀ g, AuditTrail.may P c (.inl o) g
  owes : ∀ r, o.owes c r = 0
  reports : o.Silent ∨ c.Appends

/-- What changes no capsule, and is not the lookup of a read. -/
theorem StoreOp.Keeps.quiet {c : AuditedCall} {o : StoreOp} (ho : o.Keeps)
    (hs : o.Silent ∨ c.Appends) (hl : ∀ id, o = .lookup id → c.reads id = false) :
    o.Quiet P c := by
  cases o with
  | lookup id =>
      refine ⟨fun _ => trivial, fun r => ?_, hs⟩
      cases r with
      | ok capsule => exact if_neg (ne_true_of_eq_false (hl id rfl))
      | error e => rfl
  | createCapsuleWithSegments => exact absurd trivial ho
  | deleteCapsule => exact absurd trivial ho
  | _ => exact ⟨fun _ => trivial, fun _ => rfl, hs⟩

/-- The asynchronous write leaves nothing to report of the capsule it creates. -/
theorem StoreOp.quiet_create {c : AuditedCall} {id : CapsuleId} {size : Nat}
    {segments : List SegmentId} {policy : Policy} (hc : c.WritesAsync id) :
    (StoreOp.createCapsuleWithSegments id size segments policy).Quiet P c := by
  refine ⟨fun _ => .inr hc, fun r => ?_, .inl trivial⟩
  obtain ⟨memoryLimit, arrivals, data, policy', rfl⟩ := hc
  cases r <;> rfl

namespace AuditTrail
variable {c : AuditedCall} {g : Owed} {α : Type}

/-- What is reported on the way. -/
theorem wp_note {e : AuditEvent} {Q : Except Error Unit → Owed → Prop} (hcause : c.Causes P e)
    (hfinal : e.isFinal = false) (hQ : Q (.ok ()) g) :
    (auditEvent e).wp (moves c) (may P c) Q g := by
  refine (wp_perform (S := StoreSig.sum AuditSig)).mpr ⟨⟨hcause, fun h => ?_⟩, fun r g' hm => ?_⟩
  · exact absurd (hfinal.symm.trans h) Bool.false_ne_true
  · obtain ⟨rfl, hg⟩ : r = .ok () ∧ if e.isFinal = true then _ else g' = g := hm
    rw [if_neg (ne_true_of_eq_false hfinal)] at hg
    exact hg ▸ hQ

/-- The segments that are reported. -/
theorem wp_reports {o : StoreOp} {r : Except Error o.Res} {Q : Except Error Unit → Owed → Prop}
    (hs : o.Silent ∨ c.Appends) (hQ : Q (.ok ()) g) :
    (o.reports r).wp (moves c) (may P c) Q g := by
  rcases hs with hs | happends
  · rw [hs.reports]
    exact hQ
  · unfold StoreOp.reports
    split
    · split
      · exact hQ
      · refine wp_foldlM (fun _ _ g' => g' = g) ?_ (fun _ _ h => h ▸ hQ) _ _ _ rfl
        rintro entry _ _ _ rfl
        exact wp_note (AuditedCall.causes_segmentAppended happends) rfl rfl
    · exact wp_note (AuditedCall.causes_segmentAppended happends) rfl hQ
    · exact hQ

theorem wp_quiet {p : Native α} {Q : Except Error α → Owed → Prop}
    (hp : p.Uses (StoreOp.Quiet P c)) (hQ : ∀ r, Q r g) :
    (withAudit p).wp (moves c) (may P c) Q g := by
  induction p with
  | ret a => exact hQ _
  | fail e => exact hQ _
  | call o k ih =>
      refine ⟨hp.1.may g, fun r g' hm => ?_⟩
      obtain ⟨-, rfl⟩ : o.Says r ∧ g' = (o.owes c r + g.1, g.2) := hm
      rw [hp.1.owes r, zero_add]
      exact wp_bind.mpr (wp_reports hp.1.reports (ih r (hp.2 r)))

theorem wp_quiet_bind {β : Type} {p : Native α} {k : α → AuditedProg β}
    {Q : Except Error β → Owed → Prop} (hp : p.Uses (StoreOp.Quiet P c))
    (herr : ∀ e, Q (.error e) g) (hk : ∀ a, (k a).wp (moves c) (may P c) Q g) :
    (withAudit p >>= k).wp (moves c) (may P c) Q g := by
  refine wp_bind.mpr (wp_quiet hp fun r => ?_)
  cases r with
  | ok a => exact hk a
  | error e => exact herr e

theorem owes_error {o : StoreOp} {e : Error} : o.owes c (.error e) = 0 := by cases o <;> rfl

/-- The first operation of a call. -/
theorem wp_first {β : Type} {o : StoreOp} {k : o.Res → AuditedProg β}
    {Q : Except Error β → Owed → Prop} {owed : o.Res → Multiset AuditEvent} (hs : o.Silent)
    (hm : may P c (.inl o) 0) (howes : ∀ a, o.owes c (.ok a) = owed a)
    (herr : ∀ e, Q (.error e) 0) (hk : ∀ a, (k a).wp (moves c) (may P c) Q (owed a, 0)) :
    (withAudit (perform (S := StoreSig) o) >>= k).wp (moves c) (may P c) Q 0 := by
  refine wp_bind.mpr ⟨hm, fun r g' hr => wp_bind.mpr (wp_reports (.inl hs) ?_)⟩
  obtain ⟨-, rfl⟩ : o.Says r ∧ g' = (o.owes c r + 0, 0) := hr
  cases r with
  | error e =>
      have hzero : (o.owes c (.error e) + 0, 0) = (0 : Owed) :=
        Prod.ext ((add_zero _).trans owes_error) rfl
      exact hzero ▸ herr e
  | ok a =>
      have howed : (o.owes c (.ok a) + 0, 0) = ((owed a, 0) : Owed) :=
        Prod.ext ((add_zero _).trans (howes a)) rfl
      exact howed ▸ hk a

/-- What is reported last. -/
theorem wp_announce {e : AuditEvent} {Q : Except Error Unit → Owed → Prop} (hcause : c.Causes P e)
    (hfinal : e.isFinal = true) (hQ : Q (.ok ()) (0, {e})) :
    (auditEvent e).wp (moves c) (may P c) Q ({e}, 0) := by
  refine (wp_perform (S := StoreSig.sum AuditSig)).mpr ⟨⟨hcause, fun _ => ?_⟩, fun r g' hm => ?_⟩
  · exact ⟨Multiset.mem_singleton_self e, rfl⟩
  · obtain ⟨rfl, hg⟩ : r = .ok () ∧ if e.isFinal = true then
        ∃ rest, ({e} : Multiset AuditEvent) = e ::ₘ rest ∧ g' = (rest, {e}) else _ := hm
    rw [if_pos hfinal] at hg
    obtain ⟨rest, hrest, rfl⟩ := hg
    obtain rfl : 0 = rest := (Multiset.cons_inj_right e).mp hrest
    exact hQ

/-! ### How a call ends -/

/-- What is to be shown of a call. -/
theorem settles_of (h : (c.audited P mlkem).wp (moves c) (may P c)
    (fun r g => Ends c (.ok ⟨c, r⟩) g) 0) :
    (AuditedCall.program P mlkem c).wp (moves c) (may P c) (Ends c) 0 :=
  wp_bind.mpr (wp_attempt.mpr h)

theorem ends_error {e : Error} : Ends c (.ok ⟨c, .error e⟩) 0 :=
  ⟨rfl, rfl, fun _ hx => absurd hx (Multiset.notMem_zero _)⟩

theorem ends_silent (hc : c.announces = false) {r : Except Error c.Res} :
    Ends c (.ok ⟨c, r⟩) 0 := by
  cases r with
  | ok a => exact ⟨rfl, rfl, fun h => absurd (hc.symm.trans h) Bool.false_ne_true⟩
  | error e => exact ends_error

theorem ends_announced {e : AuditEvent} {a : c.Res} : Ends c (.ok ⟨c, .ok a⟩) (0, {e}) :=
  ⟨rfl, rfl, fun _ => Multiset.singleton_ne_zero e⟩

/-! ### The synchronous write -/

section
open WritePipeline
variable {coins : Nat → Bytes} {id : CapsuleId} {data : Bytes} {policy : Policy}

/-- What changes no capsule is no lookup of a write. -/
theorem quiet_write {o : StoreOp} (ho : o.Keeps) (hs : o.Silent ∨ policy.dedupe = true) :
    o.Quiet P (.write coins id data policy) := ho.quiet hs fun _ _ => rfl

theorem uses_storeHybrid_quiet {payload : Bytes} {r : CompressionResult}
    {hash : Option ContentHash} {encMeta : Option EncryptionMetadata}
    {material : Option HybridKeyMaterial} :
    (storeHybrid payload r hash encMeta material).Uses
      (StoreOp.Quiet P (.write coins id data policy)) := by
  refine uses_bind (uses_op (quiet_write not_false (.inl trivial))) fun x => ?_
  refine uses_bind (uses_mapError.mpr (uses_op (quiet_write not_false (.inl trivial)))) fun s => ?_
  exact uses_bind (uses_mapError.mpr (uses_op (quiet_write not_false (.inl trivial))))
    fun _ => trivial

/-- A chunk leaves a segment more, and nothing that is owed. -/
theorem wp_writeChunk {st : WriteState} {chunk : Bytes × Nat}
    {Q : Except Error WriteState → Owed → Prop} (hchunk : chunk.1 ∈ chunks SEGMENT_SIZE data)
    (herr : ∀ e, Q (.error e) g)
    (hok : ∀ st', st'.segmentIds.length = st.segmentIds.length + 1 → Q (.ok st') g) :
    (writeChunkAudited P mlkem coins id policy st chunk).wp (moves (.write coins id data policy))
      (may P (.write coins id data policy)) Q g := by
  have hpush : ∀ x n hit, Q (.ok (st.push x n hit)) g := fun x n hit => hok _ List.length_append
  refine wp_bind.mpr (wp_lift.mpr ?_)
  cases hcompress : compressSegment P chunk.1 policy.compression with
  | error e => exact herr _
  | ok vr =>
  obtain ⟨compressedData, compResult⟩ := vr
  refine wp_quiet_bind (uses_encryptionKey (quiet_write not_false (.inl trivial))) herr
    fun key => ?_
  refine wp_bind.mpr (wp_lift.mpr ?_)
  cases (sealHybrid P mlkem policy.cryptoProfile id chunk.2 (coins chunk.2) key compressedData
      (hashContent P compressedData)) with
  | error e => exact herr _
  | ok sealing =>
  obtain ⟨finalData, encryptionMeta, hybridState⟩ := sealing
  show Prog.wp _ _ Q (if policy.dedupe = true then _ else _) g
  split
  · next hdedupe =>
      refine wp_quiet_bind (uses_op (quiet_write not_false (.inl trivial))) herr fun found => ?_
      cases found with
      | some existingSegId =>
          refine wp_quiet_bind (uses_mapError.mpr (uses_op (quiet_write not_false (.inr hdedupe))))
            herr fun updated => ?_
          refine wp_bind.mpr (wp_note ⟨rfl, hdedupe, chunk.1, hchunk, _, _, hcompress, rfl⟩ rfl ?_)
          exact hpush _ _ _
      | none =>
          refine wp_quiet_bind uses_storeHybrid_quiet herr fun newSegId => ?_
          refine wp_quiet_bind (uses_mapError.mpr (uses_op (quiet_write not_false (.inl trivial))))
            herr fun _ => ?_
          exact hpush _ _ _
  · refine wp_quiet_bind uses_storeHybrid_quiet herr fun newSegId => ?_
    exact hpush _ _ _

/-- The capsule is created, and reported. -/
theorem wp_createCapsule {segments : List SegmentId} {Q : Except Error CapsuleId → Owed → Prop}
    (hlength : segments.length = (chunks SEGMENT_SIZE data).length)
    (hok : ∀ e, Q (.ok id) (0, {e})) :
    (do
      withAudit ((Native.createCapsuleWithSegments id data.length segments policy).mapError
        (mapRegistryError "create_capsule_with_segments"))
      auditEvent (.capsuleCreated id data.length segments.length policy)
      return id : AuditedProg CapsuleId).wp (moves (.write coins id data policy))
      (may P (.write coins id data policy)) Q 0 := by
  have hcause : (AuditedCall.write coins id data policy).Causes P
      (.capsuleCreated id data.length segments.length policy) := ⟨rfl, rfl, hlength, rfl⟩
  refine wp_bind.mpr ⟨.inl hcause, fun r g' hm => wp_bind.mpr (wp_reports (.inl trivial) ?_)⟩
  obtain ⟨hsaid, rfl⟩ := hm
  cases r with
  | error e => exact hsaid.elim
  | ok _ => exact wp_bind.mpr (wp_announce hcause rfl (hok _))

theorem wp_writeCapsule {Q : Except Error CapsuleId → Owed → Prop} (herr : ∀ e, Q (.error e) 0)
    (hok : ∀ e, Q (.ok id) (0, {e})) :
    (writeCapsuleAudited P mlkem coins id data policy).wp (moves (.write coins id data policy))
      (may P (.write coins id data policy)) Q 0 := by
  refine wp_bind.mpr (wp_foldlM (fun xs st g => g = 0 ∧
    st.segmentIds.length + xs.length = (chunks SEGMENT_SIZE data).length ∧
      ∀ chunk ∈ xs, chunk.1 ∈ chunks SEGMENT_SIZE data) ?_ ?_ _ _ _ ⟨rfl, ?_, ?_⟩)
  · rintro chunk xs st g ⟨rfl, hlength, hmem⟩
    refine wp_writeChunk (hmem chunk List.mem_cons_self) herr fun st' hst' => ?_
    refine ⟨rfl, ?_, fun x hx => hmem x (List.mem_cons_of_mem chunk hx)⟩
    rw [hst', ← hlength, List.length_cons]
    exact Nat.succ_add_eq_add_succ _ _
  · rintro st g ⟨rfl, hlength, -⟩
    show Prog.wp _ _ Q (if 0 < st.dedupStats.bytesSaved then _ else _) 0
    split
    · refine wp_quiet_bind (uses_mapError.mpr (uses_op (quiet_write not_false (.inl trivial)))) herr
        fun _ => ?_
      exact wp_createCapsule hlength hok
    · exact wp_createCapsule hlength hok
  · rw [List.length_zipIdx]
    exact Nat.zero_add _
  · intro chunk hchunk
    exact List.fst_mem_of_mem_zipIdx hchunk

end

/-! ### The asynchronous write -/

section
variable {memoryLimit : Nat} {arrivals : Order (Bytes × Nat)} {id : CapsuleId} {data : Bytes}
  {policy : Policy}

theorem uses_writeAsync_quiet :
    (WritePipeline.writeCapsuleWithPolicyAsync P memoryLimit arrivals id data policy).Uses
      (StoreOp.Quiet P (.writeAsync memoryLimit arrivals id data policy)) := by
  have hkeeps : ∀ {o : StoreOp}, o.Keeps →
      o.Quiet P (.writeAsync memoryLimit arrivals id data policy) :=
    fun ho => ho.quiet (.inr trivial) fun _ _ => rfl
  refine uses_writeAsync (fun o ho => hkeeps ho) fun segments => ?_
  exact StoreOp.quiet_create ⟨memoryLimit, arrivals, data, policy, rfl⟩

end

/-! ### The read, the delete and the collection -/

section
open WritePipeline
variable {id : CapsuleId}

/-- The loop of a read looks no capsule up. -/
theorem uses_readSegments (capsule : Capsule) :
    (readSegments P mlkem capsule).Uses (StoreOp.Quiet P (.read id)) := by
  have hkeeps : ∀ {o : StoreOp}, o.Keeps ∧ o.Silent → (∀ id', o ≠ .lookup id') →
      o.Quiet P (.read id) := fun ho hl => ho.1.quiet (.inl ho.2) fun id' h => absurd h (hl id')
  refine uses_foldlM (fun result seg => ?_) _ _
  refine uses_bind ?_ fun _ => trivial
  refine uses_bind (uses_op (hkeeps ⟨not_false, trivial⟩ nofun)) fun raw => ?_
  refine uses_bind (uses_op (hkeeps ⟨not_false, trivial⟩ nofun)) fun (s : Segment) => ?_
  show Prog.Uses _ (if s.encrypted = true then _ else _)
  split
  · refine uses_bind (uses_op (hkeeps ⟨not_false, trivial⟩ nofun)) fun key => ?_
    exact uses_bind uses_lift fun _ => uses_bind uses_lift fun _ => uses_ret
  · exact uses_ret

theorem wp_readCapsule {Q : Except Error Bytes → Owed → Prop} (herr : ∀ e, Q (.error e) 0)
    (hread : ∀ e size, Q (.error e) ({.capsuleRead id size}, 0))
    (hok : ∀ a e, Q (.ok a) (0, {e})) :
    (readCapsuleAudited P mlkem id).wp (moves (.read id)) (may P (.read id)) Q 0 := by
  refine wp_first (o := .lookup id) trivial trivial (fun capsule => if_pos (decide_eq_true rfl))
    herr fun capsule => ?_
  refine wp_quiet_bind (uses_readSegments capsule) (fun e => hread e _) fun result => ?_
  exact wp_bind.mpr (wp_announce rfl rfl (hok result _))

/-- A segment that cannot be released is not a capsule that is not there. -/
theorem wp_release {g : Owed} {x : SegmentId} {Q : Except Error Unit → Owed → Prop}
    (herr : ∀ e, e ≠ capsuleNotFound → Q (.error e) g) (hok : Q (.ok ()) g) :
    (releaseSegment x).wp (fun o => moves (.delete id) (.inl o))
      (fun o => may P (.delete id) (.inl o)) Q g := by
  have hop : ∀ {o : StoreOp} {Q : Except Error o.Res → Owed → Prop}, o.Quiet P (.delete id) →
      (∀ r, o.Says r → Q r g) → (perform (S := StoreSig) o).wp
        (fun o => moves (.delete id) (.inl o)) (fun o => may P (.delete id) (.inl o)) Q g := by
    intro o Q ho hQ
    refine wp_perform.mpr ⟨ho.may g, fun r g' hm => ?_⟩
    obtain ⟨hsaid, rfl⟩ : o.Says r ∧ g' = (o.owes _ r + g.1, g.2) := hm
    rw [ho.owes r, zero_add]
    exact hQ r hsaid
  have hkeeps : ∀ {o : StoreOp}, o.Keeps ∧ o.Silent → o.Quiet P (.delete id) :=
    fun ho => ho.1.quiet (.inl ho.2) fun _ _ => rfl
  have hremove : (discard (Native.removeSegment x)).wp (fun o => moves (.delete id) (.inl o))
      (fun o => may P (.delete id) (.inl o)) Q g := by
    refine wp_discard.mpr (hop (hkeeps ⟨not_false, trivial⟩) fun r hsaid => ?_)
    cases r with
    | error e => exact hsaid.elim
    | ok _ => exact hok
  refine wp_bind.mpr (hop (hkeeps ⟨not_false, trivial⟩) fun r hsaid => ?_)
  cases r with
  | error e => exact herr e hsaid
  | ok segment =>
      show Prog.wp _ _ Q (if Segment.refCount segment = 0 then _ else _) g
      split
      · cases Segment.contentHash segment with
        | none => exact hremove
        | some hash =>
            refine wp_bind.mpr (wp_discard.mpr ?_)
            refine hop (hkeeps ⟨not_false, trivial⟩) fun r hsaid => ?_
            cases r with
            | error e => exact hsaid.elim
            | ok _ => exact hremove
      · exact hok

theorem wp_deleteCapsule_audited {Q : Except Error Unit → Owed → Prop}
    (herr : ∀ e, Q (.error e) 0)
    (hrelease : ∀ e size, e ≠ capsuleNotFound → Q (.error e) ({.capsuleDeleted id size}, 0))
    (hok : ∀ e, Q (.ok ()) (0, {e})) :
    (deleteCapsuleAudited id).wp (moves (.delete id)) (may P (.delete id)) Q 0 := by
  refine wp_first (o := .deleteCapsule id) trivial rfl (fun capsule => rfl) herr fun capsule => ?_
  have hreport : (auditEvent (.capsuleDeleted id (Capsule.size capsule))).wp (moves (.delete id))
      (may P (.delete id)) Q ({.capsuleDeleted id (Capsule.size capsule)}, 0) :=
    wp_announce rfl rfl (hok _)
  have hsilent : ((Capsule.segments capsule).foldlM (fun _ segId => releaseSegment segId) ()).Uses
      StoreOp.Silent := uses_foldlM (fun _ _ =>
    uses_releaseSegment trivial (fun _ => trivial) trivial) _ _
  rw [withAudit_of_silent hsilent]
  refine wp_bind.mpr (wp_inl_of (fun _ _ _ _ h => h) (fun _ _ h => h) (wp_foldlM
    (fun _ _ g => g = ({.capsuleDeleted id (Capsule.size capsule)}, 0)) ?_ ?_ _ _ _ rfl))
  · rintro x xs _ _ rfl
    exact wp_release (fun e he => hrelease e _ he) rfl
  · rintro _ _ rfl
    exact hreport

theorem uses_collect_quiet {ord : Order Segment} :
    (garbageCollect ord).Uses (StoreOp.Quiet P (.collect ord)) := by
  have hkeeps : ∀ {o : StoreOp}, o.Keeps ∧ o.Silent → o.Quiet P (.collect ord) :=
    fun ho => ho.1.quiet (.inl ho.2) fun _ _ => rfl
  exact uses_sweep (fun _ => hkeeps ⟨not_false, trivial⟩) (fun _ _ => hkeeps ⟨not_false, trivial⟩)
    (fun _ => hkeeps ⟨not_false, trivial⟩) ord

end

/-- **Every call** reports what it did as its last step. -/
theorem settles (c : AuditedCall) :
    (AuditedCall.program P mlkem c).wp (moves c) (may P c) (Ends c) 0 := by
  refine settles_of ?_
  cases c with
  | write coins id data policy =>
      exact wp_writeCapsule (fun _ => ends_error) fun _ => ends_announced
  | writeAsync memoryLimit arrivals id data policy =>
      exact wp_quiet uses_writeAsync_quiet fun _ => ends_silent rfl
  | read id =>
      refine wp_readCapsule (fun _ => ends_error) (fun e size => ?_) fun _ _ => ends_announced
      refine ⟨rfl, rfl, fun x hx hchange => ?_⟩
      exact absurd (Multiset.mem_singleton.mp hx ▸ rfl) hchange
  | delete id =>
      refine wp_deleteCapsule_audited (fun _ => ends_error) (fun e size he => ?_)
        fun _ => ends_announced
      exact ⟨rfl, rfl, fun _ _ _ => ⟨⟨id, rfl⟩, he⟩⟩
  | collect ord => exact wp_quiet uses_collect_quiet fun _ => ends_silent rfl

/-! ### At every moment -/

theorem inv_start {options : AuditOptions} {km : Option (KeyManager P)} :
    Inv (ι := ι) C P kept [] (AuditedStore.start C options km) 0 := by
  have htrail : (AuditWorld.start.step C P (.restart options)).trail = [] := by
    rw [AuditWorld.step_restart]
    rfl
  have hnone : ∀ e, e ∉ recorded (AuditWorld.start.step C P (.restart options)) 0 := by
    intro e he
    rw [recorded, htrail] at he
    exact Multiset.notMem_zero e he
  have hempty : ∀ id d, (AuditedStore.start C options km).1.directory id ≠ some d :=
    fun id d hd => by cases hd
  refine ⟨⟨fun _ => 0, fun id d hd => absurd hd (hempty id d), fun e he => absurd he (hnone e)⟩,
    fun e he => ?_, ?_, fun _ id hid => absurd hid List.not_mem_nil, fun _ => ⟨[], .nil, ?_⟩,
    AuditWorld.logged_start⟩
  · exact absurd (htrail ▸ he : e ∈ []) List.not_mem_nil
  · rw [changes, recorded, AuditedStore.start, htrail]
    exact Multiset.nodup_zero
  · rw [AuditedStore.start, htrail]
    rfl

/-- How the clients of an audited pipeline conduct themselves. -/
def conduct (ι : Type) (P : Primitives) (mlkem : Option MlkemKeyManager)
    (C : AuditCodec AuditEvent) (kept : Prop) :
    Conduct (StoreSig.sum AuditSig) Error (AuditedStore P) Owed ι AuditedCall AuditedAnswer where
  program := AuditedCall.program P mlkem
  exec := AuditedStore.Does C P kept
  may := may P
  moves := moves
  owns := Owns P
  ends := Ends
  Inv := Inv C P kept
  begins := Inv.begins
  owns_zero := fun _ => ⟨fun _ he => absurd he (Multiset.notMem_zero _), .inl rfl⟩
  step := Inv.step
  answers := fun h _ hg he => h.answers hg he
  fails := fun _ _ _ he => he.elim
  settles := settles

end AuditTrail

end Space
