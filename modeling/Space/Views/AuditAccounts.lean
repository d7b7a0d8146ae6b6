import Space.Views.AuditCalls
import Space.Views.Pipeline

/-!
# Views — AuditAccounts

The audit trail of a pipeline whose clients run side by side.

* `TrailAccounts`: what an auditor who holds the files knows of the calls and of the capsules.
* `auditTrail_accounts`: it is so at every moment of every run, and the store has a history of the
  pipeline without a log.
-/

namespace Space
open Support Prog

variable {ι : Type} {P : Primitives} {mlkem : Option MlkemKeyManager} {C : AuditCodec AuditEvent}
  {kept : Prop} {t : List (Event ι AuditedCall AuditedAnswer Error)}

/-! ### What is known -/

/-- What the trail says of the history `t` and of the capsules, where the calls of `l` are open. -/
structure TrailAccounts (C : AuditCodec AuditEvent) (kept : Prop)
    (t : List (Event ι AuditedCall AuditedAnswer Error)) (x : AuditedStore P)
    (l : List AuditedCall) : Prop where
  /-- What is reported was done by a call. -/
  caused : ∀ e ∈ x.2.trail, ∃ i c, .invoke i c ∈ t ∧ c.Causes P e
  /-- It is so, and all that is said of the size of a capsule agrees. -/
  truthful : ∃ sizes : CapsuleId → Nat, (∀ id d, x.1.directory id = some d → d.size = sizes id) ∧
    ∀ e ∈ x.2.trail, e.Truthful x.1 sizes
  /-- No capsule is created or deleted twice. -/
  once : (x.2.trail.filterMap AuditEvent.change).Nodup
  /-- Every call that has succeeded is told of once, and of the open ones some are. -/
  announced : kept → ∃ told telling : List AuditEvent, ∃ m, m.Sublist l ∧
    List.Forall₂ (AuditedCall.Announces P) (announcedCalls t) told ∧
    List.Forall₂ (AuditedCall.Announces P) m telling ∧
    (x.2.trail.filter AuditEvent.isFinal).Perm (told ++ telling)
  /-- The capsules that are there are those that were created and not deleted. -/
  determined : kept → ∀ id, Orderly t id → (∀ c ∈ l, ¬ c.Changes id) → ∀ d : DirectoryEntry,
    x.1.directory id = some d ↔
      .capsuleCreated id d.size d.segments d.policy ∈ x.2.trail ∧
        ∀ size, .capsuleDeleted id size ∉ x.2.trail
  /-- The files hold every record. -/
  held : kept → (retained C x.2.files).Perm x.2.acknowledged
  /-- The records are one chain. -/
  isChain : (∀ data, P.blake3 data ≠ zeroHash) → Chained x.2.acknowledged

namespace AuditTrail
variable {c : AuditedCall} {e : AuditEvent} {id : CapsuleId}

/-- A call that tells of a capsule changes it. -/
theorem changes_of_announces (h : c.Announces P e)
    (he : e.change = some (.created id) ∨ e.change = some (.deleted id)) : c.Changes id := by
  obtain ⟨hcause, hfinal⟩ := h
  cases e with
  | capsuleCreated id' size segments policy =>
      obtain rfl : id' = id := CapsuleChange.created.inj (Option.some.inj
        (he.resolve_right fun h => by cases h))
      cases c with
      | write coins id data policy' => exact hcause.1.symm
      | _ => exact hcause.elim
  | capsuleDeleted id' size =>
      obtain rfl : id' = id := CapsuleChange.deleted.inj (Option.some.inj
        (he.resolve_left fun h => by cases h))
      cases c with
      | delete id => exact hcause.symm
      | _ => exact hcause.elim
  | capsuleRead id' size => exact he.elim nofun nofun
  | _ => cases hfinal

/-- What the open calls owe, and what they have told. -/
theorem follows_open {l : List (ι × AuditedCall × AuditedProg AuditedAnswer)} {gs : List Owed}
    (hl : List.Forall₂ ((conduct ι P mlkem C kept).Follows t) l gs) :
    (∀ e ∈ gs.sum.1, ∃ c ∈ l.map fun x => x.2.1, c.Announces P e) ∧
      ∃ (m : List AuditedCall) (telling : List AuditEvent), m.Sublist (l.map fun x => x.2.1) ∧
        List.Forall₂ (AuditedCall.Announces P) m telling ∧
        gs.sum.2 = (telling : Multiset AuditEvent) := by
  induction hl with
  | nil => exact ⟨fun e he => absurd he (Multiset.notMem_zero e), [], [], .slnil, .nil, rfl⟩
  | @cons x g l gs hx _ ih =>
      obtain ⟨hopen, m, telling, hm, htelling, hsum⟩ := ih
      obtain ⟨howed, htold⟩ : Owns P x.2.1 g := hx.owns
      rw [List.sum_cons, List.map_cons]
      refine ⟨fun e he => ?_, ?_⟩
      · rcases Multiset.mem_add.mp he with he | he
        · exact ⟨x.2.1, List.mem_cons_self, howed e he⟩
        · obtain ⟨c, hc, hannounces⟩ := hopen e he
          exact ⟨c, List.mem_cons_of_mem _ hc, hannounces⟩
      · rcases htold with hzero | ⟨e, hself, hannounces⟩
        · refine ⟨m, telling, hm.cons _, htelling, ?_⟩
          rw [Prod.snd_add, hzero, zero_add, hsum]
        · refine ⟨x.2.1 :: m, e :: telling, hm.cons_cons _, .cons hannounces htelling, ?_⟩
          rw [Prod.snd_add, hself, hsum, Multiset.singleton_add]
          rfl

/-- **What the invariant says**, where every open call follows the conduct. -/
theorem Inv.trailAccounts {x : AuditedStore P}
    {l : List (ι × AuditedCall × AuditedProg AuditedAnswer)} {gs : List Owed}
    (h : Inv C P kept t x gs.sum) (hl : List.Forall₂ ((conduct ι P mlkem C kept).Follows t) l gs) :
    TrailAccounts C kept t x (l.map fun x => x.2.1) := by
  obtain ⟨s, w⟩ := x
  obtain ⟨hopen, m, telling, hm, htelling, hsum⟩ := follows_open hl
  obtain ⟨sizes, hsizes, htrue⟩ := h.truthful
  have hless : (w.trail : Multiset AuditEvent) ≤ recorded w gs.sum := Multiset.le_add_right _ _
  have htrail : ∀ e ∈ w.trail, e.Truthful s sizes := fun e he =>
    htrue e (Multiset.mem_of_le hless (Multiset.mem_coe.mpr he))
  -- a change that no open call makes is reported
  have hreported : ∀ {id : CapsuleId} {k : CapsuleChange},
      (∀ c ∈ l.map fun x => x.2.1, ¬ c.Changes id) → k = .created id ∨ k = .deleted id →
      k ∈ changes w gs.sum → ∃ e ∈ w.trail, e.change = some k := by
    intro id k hidle hk hmem
    obtain ⟨e, he, hchange⟩ := (Multiset.mem_filterMap _ _).mp hmem
    rcases Multiset.mem_add.mp he with he | he
    · exact ⟨e, Multiset.mem_coe.mp he, hchange⟩
    · obtain ⟨c, hc, hannounces⟩ := hopen e he
      refine absurd (changes_of_announces hannounces ?_) (hidle c hc)
      rcases hk with rfl | rfl
      · exact .inl hchange
      · exact .inr hchange
  refine ⟨h.caused, ⟨sizes, fun id d hd => (hsizes id d hd).2, htrail⟩, ?_, fun k => ?_,
    fun k id ho hidle d => ⟨fun hd => ?_, fun hd => ?_⟩, h.logged.retained, h.logged.isChain⟩
  · refine Multiset.coe_nodup.mp (Multiset.nodup_of_le ?_ h.once)
    exact Multiset.filterMap_le_filterMap _ hless
  · obtain ⟨told, htold, hcount⟩ := h.told k
    refine ⟨told, telling, m, hm, htold, htelling, Multiset.coe_eq_coe.mp ?_⟩
    rw [hcount, hsum, Multiset.coe_add]
  · obtain ⟨hused, -⟩ := hsizes id d hd
    obtain ⟨e, he, hchange⟩ := hreported hidle (.inl rfl) (h.complete k id hused ho).1
    refine ⟨?_, fun size hmem => ?_⟩
    · cases e with
      | capsuleCreated id' size segments policy =>
          obtain rfl : id' = id := CapsuleChange.created.inj (Option.some.inj hchange)
          obtain rfl := (htrail _ he).2.2 d hd
          exact he
      | capsuleDeleted => cases hchange
      | _ => cases hchange
    · exact absurd ((htrail _ hmem).2.2.symm.trans hd) nofun
  · obtain ⟨hcreated, hdeleted⟩ := hd
    obtain ⟨hused, -, hentry⟩ := htrail _ hcreated
    cases hdir : s.directory id with
    | some d' => rw [hentry d' hdir]
    | none =>
        obtain ⟨e, he, hchange⟩ :=
          hreported hidle (.inr rfl) ((h.complete k id hused ho).2 hdir)
        cases e with
        | capsuleDeleted id' size =>
            obtain rfl : id' = id := CapsuleChange.deleted.inj (Option.some.inj hchange)
            exact absurd he (hdeleted size)
        | capsuleCreated => cases hchange
        | _ => cases hchange

end AuditTrail

/-! ### The theorem -/

theorem AuditedCall.unreported_program (c : AuditedCall) :
    unreported (c.program P mlkem) = c.unaudited P mlkem := by
  have hends : ∀ p : AuditedProg c.Res,
      unreported (p.attempt >>= fun r => .ret (⟨c, r⟩ : AuditedAnswer)) =
        ((unreported p).attempt >>= fun r => .ret ⟨c, r⟩) := by
    intro p
    rw [unreported, Prog.without_bind, Prog.without_attempt]
    rfl
  rw [AuditedCall.program, hends, AuditedCall.unreported_audited]
  rfl

/-- **The trail accounts for the calls and the capsules**, whatever the clients of a new pipeline do
side by side; and without the log, they do the same. -/
theorem auditTrail_accounts {km : Option (KeyManager P)} {options : AuditOptions}
    {x : AuditedStore P} {l : List (ι × AuditedCall × AuditedProg AuditedAnswer)}
    (h : ClientRun (AuditedCall.program P mlkem) (AuditedStore.Does C P kept)
      (AuditedStore.start C options km) t x l) :
    TrailAccounts C kept t x (l.map fun y => y.2.1) ∧
      ∃ m, ClientRun (AuditedCall.unaudited P mlkem) SharedStore.Does ⟨.empty km, []⟩ t x.1 m ∧
        m.map (fun y => (y.1, y.2.1)) = l.map fun y => (y.1, y.2.1) := by
  obtain ⟨gs, hI, hl⟩ := (AuditTrail.conduct ι P mlkem C kept).run AuditTrail.inv_start h
  refine ⟨AuditTrail.Inv.trailAccounts hI hl, ?_⟩
  have hlog : ∀ {e : AuditEvent} {w : AuditWorld AuditEvent} {r : Except Error Unit}
      {w' : AuditWorld AuditEvent}, AuditWorld.Logs C P kept e w r w' → r = .ok () := fun hr => hr.1
  have hplain : (fun c => unreported (AuditedCall.program P mlkem c)) =
      AuditedCall.unaudited P mlkem := funext AuditedCall.unreported_program
  have hrun := h.without hlog
  refine ⟨_, hplain ▸ hrun, ?_⟩
  rw [List.map_map]
  rfl

/-! ### A run -/

/-- A capsule of seven bytes is created. -/
def reportedNew : AuditEvent := .capsuleCreated ⟨0⟩ 7 1 {}

/-- It is read. -/
def reportedRead : AuditEvent := .capsuleRead ⟨0⟩ 7

/-- It is deleted. -/
def reportedGone : AuditEvent := .capsuleDeleted ⟨0⟩ 7

/-- Its identifier. -/
def zeroIdJson : Text := ",\"capsule_id\":\"00000000-0000-0000-0000-000000000000\"".toList

/-- The default policy. -/
def defaultPolicyJson : Text :=
  "\x7b\"compression\":\x7b\"LZ4\":\x7b\"level\":1\x7d\x7d,\"dedupe\":true,".toList ++
  "\"compact_interval_secs\":3600,\"erasure_profile\":null,\"encryption\":\"Disabled\",".toList ++
  "\"crypto_profile\":\"Classical\",\"layout\":\x7b\"strategy\":\x7b\"Fixed\":".toList ++
  "\x7b\"segment_size\":4194304\x7d\x7d,\"ec_profile\":[6,2],\"heat_threshold\":0.7\x7d,".toList ++
  "\"rpo\":\x7b\"secs\":60,\"nanos\":0\x7d,\"latency_target\":".toList ++
  "\x7b\"secs\":0,\"nanos\":10000000\x7d,\"sovereignty\":\"Local\"\x7d".toList

/-- The texts of the three events, and that of a deletion for all others. -/
def sampleText (event : AuditEvent) : Text :=
  if event = reportedNew then
    "\x7b\"event\":\"capsule_created\"".toList ++ zeroIdJson ++
      ",\"size\":7,\"segments\":1,\"policy\":".toList ++ defaultPolicyJson ++ "\x7d".toList
  else if event = reportedRead then
    "\x7b\"event\":\"capsule_read\"".toList ++ zeroIdJson ++ ",\"size\":7\x7d".toList
  else
    "\x7b\"event\":\"capsule_deleted\"".toList ++ zeroIdJson ++ ",\"reclaimed_bytes\":7\x7d".toList

/-- It is one of three texts. -/
theorem sampleText_cases (event : AuditEvent) :
    ∃ other ∈ [reportedNew, reportedRead, reportedGone], sampleText event = sampleText other := by
  unfold sampleText
  split
  · next e => exact ⟨reportedNew, by decide, rfl⟩
  · split
    · exact ⟨reportedRead, by decide, rfl⟩
    · exact ⟨reportedGone, by decide, rfl⟩

theorem sampleText_opens : ∀ a ∈ [reportedNew, reportedRead, reportedGone],
    ∀ b ∈ [reportedNew, reportedRead, reportedGone], sampleText a <+: sampleText b → a = b := by
  decide +kernel

/-- The events, as those whose text reads back. -/
def sampleTexts : EventTexts AuditEvent where
  text := sampleText
  Finite := fun event => event ∈ [reportedNew, reportedRead, reportedGone]
  inj := fun {a b} ha hb e => sampleText_opens a ha b hb (e ▸ List.prefix_rfl)
  prefixFree := by
    intro a b hab
    obtain ⟨a', ha, ea⟩ := sampleText_cases a
    obtain ⟨b', hb, eb⟩ := sampleText_cases b
    rw [ea, eb] at hab ⊢
    rw [sampleText_opens a' ha b' hb hab]
  onLine := by
    have h : ∀ event ∈ [reportedNew, reportedRead, reportedGone], OnLine (sampleText event) := by
      decide +kernel
    intro event
    obtain ⟨other, hother, e⟩ := sampleText_cases event
    rw [e]
    exact h other hother

/-- `serde_json` at these events. -/
noncomputable def samples : AuditCodec AuditEvent := sampleTexts.codec

namespace AuditWorld
variable {w : AuditWorld AuditEvent} {e : AuditEvent}

/-- A log without a client and without a maximal size, whose file ends with a line. -/
structure Roomy (w : AuditWorld AuditEvent) : Prop where
  log : ∃ state, w.log = some (beating 0, state)
  ended : Lines.Ended 10 (w.files.current.getD [])

/-- **It keeps what is appended.** -/
theorem Roomy.append (h : w.Roomy) (hfinite : C.Finite e) : ∃ w', Logs C P True e w (.ok ()) w' ∧
    w'.Roomy ∧ w'.trail = w.trail ++ [e] := by
  obtain ⟨state, hlog⟩ := h.log
  have hstamp : state.stamp (beating 0) (.error (.msg "")) = (.ok none, state) :=
    if_neg Bool.false_ne_true
  have hstep : w.step C P (.append e 0 (.error (.msg ""))) = _ := step_append hlog hstamp
  have hnotFull : ∀ files : AuditFiles, ¬ files.Full (beating 0) := fun _ hfull =>
    absurd hfull.1 (Nat.lt_irrefl 0)
  rw [filesAfter, if_neg (hnotFull _)] at hstep
  refine ⟨_, ⟨rfl, 0, .error (.msg ""), rfl, fun _ => ⟨?_, ?_⟩⟩, ⟨?_, ?_⟩, ?_⟩
  · rw [hstep]
    exact fun e => List.cons_ne_nil _ _ (List.append_right_eq_self.mp e)
  · intro options state' tsaProof hlog' _
    obtain ⟨rfl, -⟩ := Prod.mk.inj (Option.some.inj (hlog.symm.trans hlog'))
    exact ⟨hfinite, h.ended, fun _ hfull => absurd hfull (hnotFull _)⟩
  · rw [hstep]
    exact ⟨_, rfl⟩
  · rw [hstep, AuditFiles.getD_write, auditLine, ← List.append_assoc]
    intro a ha
    exact (Option.some.inj (ha.symm.trans List.getLast?_concat)).symm ▸ rfl
  · rw [hstep, trail, List.map_append]
    rfl

end AuditWorld

namespace AuditedStore

/-- The log, as the list of what was appended to it. -/
def notes : Handler AuditSig Error (List AuditEvent) := fun e events => (.ok (), events ++ [e])

/-- The test of a schedule. -/
def isAllowed : (StoreSig.sum AuditSig).Op → SharedStore P × List AuditEvent → Bool
  | .inl o, s => decide (∀ id ∈ o.creates, id ∉ s.1.used)
  | .inr e, _ => decide (e ∈ [reportedNew, reportedRead, reportedGone])

/-- One operation of a schedule. -/
def Noted (P : Primitives) :
    Moves (StoreSig.sum AuditSig) Error (SharedStore P × List AuditEvent) := fun o s r s' =>
  isAllowed o s = true ∧ Handler.sum SharedStore.exec notes o s = (r, s')

/-- The same store, and a log with room of which the notes were taken. -/
structure Follows (s : SharedStore P × List AuditEvent) (x : AuditedStore P) : Prop where
  store : x.1 = s.1
  trail : x.2.trail = s.2
  roomy : x.2.Roomy

/-- What a schedule does is done to a log with room. -/
theorem Follows.step {o : (StoreSig.sum AuditSig).Op}
    {r : Except Error ((StoreSig.sum AuditSig).Res o)} {s s' : SharedStore P × List AuditEvent}
    {x : AuditedStore P} (hx : Follows s x) (hr : Noted P o s r s') :
    ∃ x', Does samples P True o x r x' ∧ Follows s' x' := by
  obtain ⟨store, w⟩ := x
  obtain ⟨store', events⟩ := s
  obtain ⟨rfl, rfl, hroomy⟩ := hx
  obtain ⟨h, e⟩ := hr
  cases o with
  | inl o =>
      obtain ⟨rfl, rfl⟩ := Prod.mk.inj e
      exact ⟨((SharedStore.exec o store).2, w), ⟨⟨rfl, rfl, of_decide_eq_true h⟩, rfl⟩,
        ⟨rfl, rfl, hroomy⟩⟩
  | inr event =>
      obtain ⟨rfl, rfl⟩ := Prod.mk.inj e
      obtain ⟨w', hlogs, hroomy', htrail'⟩ := @AuditWorld.Roomy.append P samples w event hroomy
        (of_decide_eq_true h : event ∈ [reportedNew, reportedRead, reportedGone])
      exact ⟨(store, w'), ⟨hlogs, rfl⟩, ⟨rfl, htrail', hroomy'⟩⟩

theorem follows_start :
    Follows (⟨.empty none, []⟩, []) (start (P := P) samples (AuditWorld.beating 0) none) := by
  refine ⟨rfl, ?_, ⟨⟨zeroHash, 0, 0, none⟩, ?_⟩, fun _ ha => ?_⟩
  · rw [start, AuditWorld.step_restart]
    rfl
  · rw [start, AuditWorld.step_restart]
    rfl
  · rw [start, AuditWorld.step_restart] at ha
    cases ha

end AuditedStore

/-- Client 0 writes a capsule.  Client 1 has read its segment, and not yet reported that, when
client 2 deletes the capsule and reports it; then client 1 reports its read, and client 3 begins
one. -/
def auditTurns : List (Turn Nat AuditedCall) :=
  .invoke 0 (.write (fun _ => []) ⟨0⟩ unframed {}) :: List.replicate 8 (.next 0) ++
    .invoke 1 (.read ⟨0⟩) :: List.replicate 3 (.next 0) ++
    .invoke 2 (.delete ⟨0⟩) :: List.replicate 6 (.next 0) ++
    [.next 0, .next 0, .invoke 3 (.read ⟨0⟩)]

theorem auditTrail_accounts_sample :
    ∃ t x l, ClientRun (AuditedCall.program .marking none)
        (AuditedStore.Does samples .marking True)
        (AuditedStore.start samples (AuditWorld.beating 0) none) t x l ∧
      x.2.trail = [reportedNew, reportedGone, reportedRead] ∧ l.map (fun y => y.1) = [3] ∧
      TrailAccounts samples True t x (l.map fun y => y.2.1) ∧
      ∃ m, ClientRun (AuditedCall.unaudited .marking none) SharedStore.Does
          ⟨.empty (P := .marking) none, []⟩ t x.1 m ∧
        m.map (fun y => (y.1, y.2.1)) = l.map fun y => (y.1, y.2.1) := by
  have hs : (clientSchedule (AuditedCall.program .marking none)
      (Handler.sum SharedStore.exec AuditedStore.notes) AuditedStore.isAllowed
      ((⟨.empty none, []⟩ : SharedStore .marking), []) auditTurns).map
        (fun y => (y.2.1.2, y.2.2.map fun z => z.1)) =
          some ([reportedNew, reportedGone, reportedRead], [3]) := by
    decide +kernel
  obtain ⟨y, hy, e⟩ := Option.map_eq_some_iff.mp hs
  obtain ⟨htrail, hopen⟩ := Prod.mk.inj e
  have hnoted : ClientRun (AuditedCall.program .marking none) (AuditedStore.Noted .marking) _
      y.1 y.2.1 y.2.2 := clientRun_of_clientSchedule (fun o s h => ⟨h, rfl⟩) hy
  obtain ⟨x, hrun, hfollows⟩ := hnoted.along AuditedStore.Follows.step AuditedStore.follows_start
  refine ⟨_, x, _, hrun, hfollows.trail.trans htrail, hopen, auditTrail_accounts hrun⟩

end Space
