import Space.Native.Agreement
import Space.Native.Drawn

/-!
# Native — DedupBytes

The dedup counter of a capsule, which is to say what the write of the capsule reused instead of
storing.  The two writes count the same (`Agrees.stats`), but the synchronous one raises the counter
before there is a capsule, and creation resets it; the asynchronous one raises it after creation,
in memory only.

* `chunks_accounted`: what a write counts is what it reused, by its segment list, and is known from
  the chunks and the state before the write.
* `dedupedBytes_exact_iff`: the counter says what was reused, as long as the capsule lives, if that
  is nothing, or the write was asynchronous and the registry was saved before it was reopened.
-/

namespace Space
open Support Prog

variable {P : Primitives} {policy : Policy} {s s' s₀ : Store P} {x : SegmentId}

/-! ### What was reused -/

namespace Store

/-- The stored length of a segment. -/
def storedLen (s : Store P) (x : SegmentId) : Nat := (s.seg x).elim 0 Segment.len

theorem storedLen_of_seg {t : Segment} (h : s.seg x = some t) : s.storedLen x = t.len := by
  unfold storedLen
  rw [h]
  rfl

theorem storedLen_of_unread (h : (s'.seg x).map Segment.unread = (s.seg x).map Segment.unread) :
    s'.storedLen x = s.storedLen x := by
  have hlen : ∀ t : Option Segment, t.elim 0 Segment.len =
      (t.map Segment.unread).elim 0 Segment.len := fun t => by cases t <;> rfl
  unfold storedLen
  rw [hlen, h, ← hlen]

theorem storedLen_took {t : Segment} (h : s.Took s' x t) (y : SegmentId) :
    s'.storedLen y = s.storedLen y := by
  unfold storedLen
  rw [h.seg]
  split
  · next e =>
      rw [e, h.old]
      rfl
  · rfl

end Store

/-- The entries of a segment list that a write reused, by their stored lengths: the identifier was
drawn before the write, or is an earlier entry. -/
def reusedBytes (s₀ s : Store P) (l : List SegmentId) : Nat :=
  (l.zipIdx.map fun e =>
    if e.1.val < s₀.registry.nextSegmentId ∨ e.1 ∈ l.take e.2 then s.storedLen e.1 else 0).sum

theorem reusedBytes_snoc (s₀ s : Store P) (l : List SegmentId) (x : SegmentId) :
    reusedBytes s₀ s (l ++ [x]) = reusedBytes s₀ s l +
      if x.val < s₀.registry.nextSegmentId ∨ x ∈ l then s.storedLen x else 0 := by
  unfold reusedBytes
  rw [List.zipIdx_append, List.map_append, List.sum_append]
  congr 1
  · refine congrArg List.sum (List.map_congr_left fun e he => ?_)
    have hlt : e.2 < l.length := by simpa using (List.mem_zipIdx he).2.1
    rw [List.take_append_of_le_length hlt.le]
  · simp

theorem reusedBytes_congr {l : List SegmentId} (h : ∀ x ∈ l, s'.storedLen x = s.storedLen x) :
    reusedBytes s₀ s' l = reusedBytes s₀ s l := by
  refine congrArg List.sum (List.map_congr_left fun e he => ?_)
  rw [h e.1 (List.fst_mem_of_mem_zipIdx he)]

/-! ### What will be reused -/

/-- The stored length that a prepared chunk reuses, of a write that began in `s` and has committed
the chunks `done`: that of the segment its hash names, or that of the first chunk with its hash. -/
def reuseOf (s : Store P) (policy : Policy) (done : List SegmentPrepared) (p : SegmentPrepared) :
    Nat :=
  if policy.dedupe then
    match s.content p.contentHash with
    | some x => s.storedLen x
    | none => (done.find? fun q => q.contentHash = p.contentHash).elim 0 fun q =>
        asU32 q.finalData.length
  else 0

/-- What the chunks after `done` reuse. -/
def reuseAfter (s : Store P) (policy : Policy) : List SegmentPrepared → List SegmentPrepared → Nat
  | _, [] => 0
  | done, p :: rest => reuseOf s policy done p + reuseAfter s policy (done ++ [p]) rest

/-- What a write of `data` reuses, known before it. -/
def reuse (s : Store P) (policy : Policy) (data : Bytes) : Nat :=
  reuseAfter s policy []
    ((chunks SEGMENT_SIZE data).zipIdx.filterMap (sealedChunk P (s.keyFor policy) policy))

namespace WritePipeline

/-! ### The chunks, one by one -/

/-- The write that began in `s₀` has stored the chunks `done`. -/
structure Accounts (s₀ : Store P) (policy : Policy) (done : List SegmentPrepared) (st : WriteState)
    (s : Store P) : Prop where
  key : s.currentKey.1 = s₀.currentKey.1
  nextLe : s₀.registry.nextSegmentId ≤ s.registry.nextSegmentId
  listed : ∀ x ∈ st.segmentIds, x.val < s.registry.nextSegmentId
  known : ∀ h x, s.content h = some x → s₀.content h = some x ∨
    s₀.content h = none ∧ x ∈ st.segmentIds ∧
      ∃ q, (done.find? fun q => q.contentHash = h) = some q ∧
        s.storedLen x = asU32 q.finalData.length
  unknown : policy.dedupe = true → ∀ h, s.content h = none → s₀.content h = none ∧
    (done.find? fun q => q.contentHash = h) = none
  kept : ∀ x : SegmentId, x.val < s₀.registry.nextSegmentId → s.storedLen x = s₀.storedLen x
  bytes : st.dedupStats.bytesSaved = reusedBytes s₀ s st.segmentIds

theorem Accounts.start (s : Store P) : Accounts s policy [] {} s where
  key := rfl
  nextLe := Nat.le_refl _
  listed := fun _ hx => absurd hx List.not_mem_nil
  known := fun _ _ h => .inl h
  unknown := fun _ _ h => ⟨h, rfl⟩
  kept := fun _ _ => rfl
  bytes := rfl

namespace Accounts
variable {done : List SegmentPrepared} {st : WriteState} {p : SegmentPrepared}

/-- **A hit** reuses a segment that was drawn before the write, or that is listed. -/
theorem took (hd : policy.dedupe = true) (hn : s₀.registry.toRegistryState.Drawn)
    (h : Accounts s₀ policy done st s) {t : Segment} (hx : s.content p.contentHash = some x)
    (ht : s.Took s' x t) :
    Accounts s₀ policy (done ++ [p]) (st.push x t.len true) s' ∧
      t.len = reuseOf s₀ policy done p := by
  have hlen := Store.storedLen_of_seg ht.old
  have hsame := Store.storedLen_took ht
  have hcontent : ∀ k, s'.content k = s.content k := fun k =>
    congrArg (fun m : Table ContentHash SegmentId => m.lookup k) ht.contentStore
  have hreuse : (x.val < s₀.registry.nextSegmentId ∨ x ∈ st.segmentIds) ∧
      t.len = reuseOf s₀ policy done p := by
    unfold reuseOf
    rw [if_pos hd]
    rcases h.known _ _ hx with hx₀ | ⟨hx₀, hmem, q, hq, hqlen⟩
    · refine ⟨.inl (hn _ _ hx₀), ?_⟩
      rw [hx₀, ← hlen, h.kept x (hn _ _ hx₀)]
    · refine ⟨.inr hmem, ?_⟩
      rw [hx₀, ← hlen, hqlen]
      simp only [hq, Option.elim]
  have hfind : ∀ {k q}, (done.find? fun q => q.contentHash = k) = some q →
      ((done ++ [p]).find? fun q => q.contentHash = k) = some q := fun hq => by
    rw [List.find?_append, hq, Option.some_or]
  refine ⟨?_, hreuse.2⟩
  exact {
    key := ht.key.trans h.key
    nextLe := ht.next ▸ h.nextLe
    listed := fun y hy => by
      rw [ht.next]
      rcases List.mem_append.mp hy with hy | hy
      · exact h.listed y hy
      · obtain rfl : y = x := List.mem_singleton.mp hy
        exact hreuse.1.elim (fun hlt => hlt.trans_le h.nextLe) (h.listed y)
    known := fun k y hy => by
      rw [hcontent] at hy
      rcases h.known k y hy with hy | ⟨hk, hmem, q, hq, hqlen⟩
      · exact .inl hy
      · exact .inr ⟨hk, List.mem_append_left _ hmem, q, hfind hq, (hsame y).trans hqlen⟩
    unknown := fun hd k hk => by
      rw [hcontent] at hk
      obtain ⟨hk₀, hnone⟩ := h.unknown hd k hk
      refine ⟨hk₀, ?_⟩
      rw [List.find?_append, hnone, Option.none_or, List.find?_cons_of_neg, List.find?_nil]
      intro e
      rw [of_decide_eq_true e, hk] at hx
      cases hx
    kept := fun y hy => (hsame y).trans (h.kept y hy)
    bytes := by
      show st.dedupStats.bytesSaved + t.len = _
      rw [show (st.push x t.len true).segmentIds = st.segmentIds ++ [x] from rfl,
        reusedBytes_snoc, if_pos hreuse.1, hsame, hlen, h.bytes,
        reusedBytes_congr fun y _ => hsame y] }

/-- **A new segment** reuses nothing. -/
theorem stored (h : Accounts s₀ policy done st s)
    (hnone : policy.dedupe = true → s.content p.contentHash = none) (hs : s.Stored policy p s') :
    Accounts s₀ policy (done ++ [p])
      (st.push ⟨s.registry.nextSegmentId⟩ p.finalData.length false) s' ∧
      0 = reuseOf s₀ policy done p := by
  have hsame : ∀ y, y ≠ ⟨s.registry.nextSegmentId⟩ → s'.storedLen y = s.storedLen y := by
    intro y hy
    unfold Store.storedLen
    rw [hs.seg, if_neg hy]
  have hlisted : ∀ y ∈ st.segmentIds, y ≠ ⟨s.registry.nextSegmentId⟩ := by
    rintro y hy rfl
    exact Nat.lt_irrefl _ (h.listed _ hy)
  have hfresh : ¬ (s.registry.nextSegmentId < s₀.registry.nextSegmentId ∨
      (⟨s.registry.nextSegmentId⟩ : SegmentId) ∈ st.segmentIds) :=
    fun k => k.elim (Nat.not_lt.mpr h.nextLe) fun hm => hlisted _ hm rfl
  have hnew : s'.storedLen ⟨s.registry.nextSegmentId⟩ = asU32 p.finalData.length := by
    unfold Store.storedLen
    rw [hs.seg, if_pos rfl]
    exact describe_len
  refine ⟨?_, ?_⟩
  · exact {
      key := hs.key.trans h.key
      nextLe := hs.next ▸ h.nextLe.trans (Nat.le_succ _)
      listed := fun y hy => by
        rw [hs.next]
        rcases List.mem_append.mp hy with hy | hy
        · exact (h.listed y hy).trans (Nat.lt_succ_self _)
        · obtain rfl : y = ⟨s.registry.nextSegmentId⟩ := List.mem_singleton.mp hy
          exact Nat.lt_succ_self _
      known := fun k y hy => by
        rw [hs.content] at hy
        split at hy
        · next hk =>
            obtain ⟨hd, rfl⟩ := hk
            cases hy
            obtain ⟨h₀, hf⟩ := h.unknown hd _ (hnone hd)
            refine .inr ⟨h₀, List.mem_append_right _ (List.mem_singleton.mpr rfl), p, ?_, hnew⟩
            rw [List.find?_append, hf, Option.none_or, List.find?_cons_of_pos]
            exact decide_eq_true rfl
        · rcases h.known k y hy with hy | ⟨hk, hmem, q, hq, hqlen⟩
          · exact .inl hy
          · refine .inr ⟨hk, List.mem_append_left _ hmem, q, ?_,
              (hsame y (hlisted y hmem)).trans hqlen⟩
            rw [List.find?_append, hq, Option.some_or]
      unknown := fun hd k hk => by
        rw [hs.content] at hk
        split at hk
        · cases hk
        · next hne =>
            obtain ⟨hk₀, hf⟩ := h.unknown hd k hk
            refine ⟨hk₀, ?_⟩
            rw [List.find?_append, hf, Option.none_or, List.find?_cons_of_neg, List.find?_nil]
            exact fun e => hne ⟨hd, (of_decide_eq_true e).symm⟩
      kept := fun y hy => by
        refine (hsame y ?_).trans (h.kept y hy)
        rintro rfl
        exact Nat.not_lt.mpr h.nextLe hy
      bytes := by
        show st.dedupStats.bytesSaved = _
        rw [show (st.push ⟨s.registry.nextSegmentId⟩ p.finalData.length false).segmentIds =
          st.segmentIds ++ [⟨s.registry.nextSegmentId⟩] from rfl, reusedBytes_snoc,
          if_neg hfresh, h.bytes, reusedBytes_congr fun y hy => hsame y (hlisted y hy),
          Nat.add_zero] }
  · unfold reuseOf
    split
    · next hd =>
        obtain ⟨h₀, hf⟩ := h.unknown hd _ (hnone hd)
        simp only [h₀, hf, Option.elim]
    · rfl

end Accounts

/-- **All chunks**: what the write counts is what it reused, and what it was to reuse. -/
theorem chunks_accounted (hn : s₀.registry.toRegistryState.Drawn) :
    ∀ {l : List (Bytes × Nat)} {st st' : WriteState} {s s' : Store P}
    {done : List SegmentPrepared}, Accounts s₀ policy done st s →
    (l.foldlM (writeChunk P policy) st).run StoreOp.exec s = (.ok st', s') →
    st'.dedupStats.bytesSaved = reusedBytes s₀ s' st'.segmentIds ∧
      st'.dedupStats.bytesSaved = st.dedupStats.bytesSaved + reuseAfter s₀ policy done
        (l.filterMap (sealedChunk P (s₀.keyFor policy) policy))
  | [], _, _, _, _, _, h, hrun => by
      cases hrun
      exact ⟨h.bytes, rfl⟩
  | chunk :: l, st, st', s, s', done, h, hrun => by
      rw [List.foldlM_cons, run_bind] at hrun
      generalize hr : (writeChunk P policy st chunk).run StoreOp.exec s = r at hrun
      obtain ⟨r, s₁⟩ := r
      cases r with
      | error e => cases (Prod.mk.inj hrun).1
      | ok st₁ =>
          obtain ⟨p, hp, hcases⟩ := writeChunk_cases hr
          have hkey : s.keyFor policy = s₀.keyFor policy := by
            unfold Store.keyFor
            rw [h.key]
          rw [hkey] at hp
          have hone : Accounts s₀ policy (done ++ [p]) st₁ s₁ ∧
              st₁.dedupStats.bytesSaved =
                st.dedupStats.bytesSaved + reuseOf s₀ policy done p := by
            rcases hcases with ⟨x, t, hd, hx, ht, rfl⟩ | ⟨hnone, hs, rfl⟩
            · obtain ⟨hacc, hlen⟩ := h.took hd hn hx ht
              exact ⟨hacc, congrArg (st.dedupStats.bytesSaved + ·) hlen⟩
            · obtain ⟨hacc, hzero⟩ := h.stored hnone hs
              exact ⟨hacc, congrArg (st.dedupStats.bytesSaved + ·) hzero⟩
          obtain ⟨hacc, hbytes⟩ := hone
          obtain ⟨hlist, hall⟩ := chunks_accounted hn hacc hrun
          refine ⟨hlist, ?_⟩
          rw [hall, hbytes, List.filterMap_cons_some hp, Nat.add_assoc]
          rfl

end WritePipeline

/-! ### What happens to the counter afterwards -/

/-- What may happen to the store after a write: an operation of some other call, or a restart. -/
inductive LaterEvent where
  | op (o : StoreOp)
  | reopen

namespace LaterEvent

def exec (s : Store P) : LaterEvent → Store P
  | op o => (o.exec s).2
  | reopen => s.reopen

/-- One event after the other. -/
def replay (s : Store P) (events : List LaterEvent) : Store P := events.foldl exec s

end LaterEvent

/-- The operation does not delete the capsule, and does not count for it. -/
def StoreOp.Spares (id : CapsuleId) : StoreOp → Prop
  | .deleteCapsule id' => id' ≠ id
  | .addDedupedBytes id' _ => id' ≠ id
  | _ => True

def LaterEvent.Spares (id : CapsuleId) : LaterEvent → Prop
  | .op o => o.Spares id
  | .reopen => True

/-- The operation saves the registry. -/
def StoreOp.saves (s : Store P) : StoreOp → Bool
  | .registerContent _ _ => true
  | .deregisterContent hash x => decide (s.content hash = some x)
  | .deleteCapsule id => (s.registry.capsules.lookup id).isSome
  | .createCapsuleWithSegments id _ _ _ => (s.registry.capsules.lookup id).isNone
  | _ => false

/-- The registry is saved before it is reopened, if it is. -/
def SavedFirst (s : Store P) : List LaterEvent → Prop
  | [] => True
  | .reopen :: _ => False
  | .op o :: events => o.saves s = true ∨ SavedFirst (o.exec s).2 events

section
variable {id : CapsuleId} {m f : Nat}
open WritePipeline

/-- An operation of another call keeps a capsule, and saves it or keeps what is on file. -/
theorem exec_spares {o : StoreOp} {c : Capsule} (ho : o.Spares id)
    (hc : s.registry.capsules.lookup id = some c) :
    (o.exec s).2.registry.capsules.lookup id = some c ∧ (o.exec s).2.registry.saved =
      if o.saves s then some (o.exec s).2.registry.toRegistryState else s.registry.saved := by
  by_cases hr : o.Registers
  case neg =>
    have hreg : (o.exec s).2.registry = s.registry := World.exec_registry [] hr ⟨s, .empty⟩
    have hsaves : o.saves s = false := by
      cases o <;> first | rfl | exact absurd trivial hr
    rw [hreg, hsaves]
    exact ⟨hc, rfl⟩
  cases o with
  | allocSegment => exact ⟨hc, rfl⟩
  | registerContent hash x => exact ⟨hc, rfl⟩
  | deregisterContent hash x =>
      simp only [StoreOp.exec, Store.onRegistry, CapsuleRegistry.deregisterContent,
        StoreOp.saves, decide_eq_true_eq]
      unfold Store.content
      split
      · exact ⟨hc, rfl⟩
      · exact ⟨hc, rfl⟩
  | addDedupedBytes id' n =>
      have hne : id ≠ id' := fun e => ho e.symm
      simp only [StoreOp.exec, Store.onRegistry, CapsuleRegistry.addDedupedBytes, StoreOp.saves]
      split
      · exact ⟨hc, rfl⟩
      · refine ⟨?_, rfl⟩
        rw [Table.lookup_insert, if_neg hne]
        exact hc
  | deleteCapsule id' =>
      have hne : id ≠ id' := fun e => ho e.symm
      rcases Option.eq_none_or_eq_some (s.registry.capsules.lookup id') with hl | ⟨c', hl⟩
      · simp only [StoreOp.exec, CapsuleRegistry.deleteCapsule, StoreOp.saves, hl]
        exact ⟨hc, rfl⟩
      · simp only [StoreOp.exec, CapsuleRegistry.deleteCapsule, StoreOp.saves, hl]
        exact ⟨Table.lookup_erase_eq_some.mpr ⟨hne, hc⟩, rfl⟩
  | createCapsuleWithSegments id' size l policy =>
      rcases Option.eq_none_or_eq_some (s.registry.capsules.lookup id') with hl | ⟨c', hl⟩
      · have hne : id ≠ id' := by
          rintro rfl
          rw [hl] at hc
          cases hc
        simp only [StoreOp.exec, CapsuleRegistry.createCapsuleWithSegments, StoreOp.saves, hl]
        refine ⟨?_, rfl⟩
        show (s.registry.capsules.insert id' _).lookup id = some c
        rw [Table.lookup_insert, if_neg hne]
        exact hc
      · simp only [StoreOp.exec, CapsuleRegistry.createCapsuleWithSegments, StoreOp.saves, hl]
        exact ⟨hc, rfl⟩
  | _ => exact hr.elim

theorem WritePipeline.Counts.op {o : StoreOp} (h : Counts s id m f) (ho : o.Spares id) :
    Counts (o.exec s).2 id m (if o.saves s then m else f) := by
  obtain ⟨c, hc, rfl⟩ := Option.map_eq_some_iff.mp h.memory
  obtain ⟨hc', hsaved⟩ := exec_spares ho hc
  refine ⟨by rw [hc', Option.map_some], ?_⟩
  rw [hsaved]
  split
  · rw [Option.bind_some, hc', Option.map_some]
  · exact h.file

/-- A restart loads what is on file. -/
theorem WritePipeline.Counts.reopen (h : Counts s id m f) : Counts s.reopen id f f := by
  have hfile := h.file
  unfold Store.reopen CapsuleRegistry.reopen
  cases hs : s.registry.saved with
  | none =>
      rw [hs] at hfile
      cases hfile
  | some state =>
      rw [hs] at hfile
      exact ⟨hfile, hfile⟩

/-- What is on file stays. -/
theorem WritePipeline.Counts.replay {events : List LaterEvent} (h : Counts s id m m)
    (hs : ∀ e ∈ events, e.Spares id) : Counts (LaterEvent.replay s events) id m m := by
  induction events generalizing s with
  | nil => exact h
  | cons e events ih =>
      refine ih ?_ fun e he => hs e (List.mem_cons_of_mem _ he)
      cases e with
      | reopen => exact h.reopen
      | op o =>
          have h' := h.op (hs _ List.mem_cons_self)
          rwa [ite_self] at h'

/-- **The counter is kept** through every event if the file has it, or the registry is saved before
it is reopened. -/
theorem WritePipeline.Counts.kept_iff {events : List LaterEvent} (h : Counts s id m f)
    (hs : ∀ e ∈ events, e.Spares id) :
    (∀ n, ((LaterEvent.replay s (events.take n)).registry.capsules.lookup id).map
      Capsule.dedupedBytes = some m) ↔ m = f ∨ SavedFirst s events := by
  induction events generalizing s f with
  | nil =>
      refine ⟨fun _ => .inr trivial, fun _ n => ?_⟩
      rw [List.take_nil]
      exact h.memory
  | cons e events ih =>
      by_cases hmf : m = f
      · subst hmf
        refine ⟨fun _ => .inl rfl, fun _ n => ?_⟩
        exact (h.replay fun e he => hs e (List.mem_of_mem_take he)).memory
      have htail : ∀ e ∈ events, e.Spares id := fun e he => hs e (List.mem_cons_of_mem _ he)
      cases e with
      | reopen =>
          -- what is loaded is not what was counted
          refine ⟨fun hall => ?_, fun k => (k.resolve_left hmf).elim⟩
          have h₁ := (hall 1).symm.trans h.reopen.memory
          exact .inl (Option.some.inj h₁)
      | op o =>
          have h' := h.op (hs _ List.mem_cons_self)
          have hshift : (∀ n, ((LaterEvent.replay s
              ((LaterEvent.op o :: events).take n)).registry.capsules.lookup id).map
                Capsule.dedupedBytes = some m) ↔
              ∀ n, ((LaterEvent.replay (o.exec s).2
                (events.take n)).registry.capsules.lookup id).map
                Capsule.dedupedBytes = some m :=
            ⟨fun hall n => hall (n + 1), fun hall n => by
              cases n with
              | zero => exact h.memory
              | succ n => exact hall n⟩
          rw [hshift, ih h' htail]
          show _ ↔ m = f ∨ o.saves s = true ∨ SavedFirst (o.exec s).2 events
          by_cases hsave : o.saves s = true
          · rw [if_pos hsave]
            exact ⟨fun _ => .inr (.inl hsave), fun _ => .inl rfl⟩
          · rw [if_neg hsave]
            simp only [hsave, false_or, Bool.false_eq_true]

/-! ### The two writes -/

variable {data : Bytes} {kind : WriteKind} {r : CapsuleId}

/-- **What a write counts**: nothing if it is synchronous, and in memory only what it was to reuse
if it is asynchronous. -/
theorem WriteKind.counts (hn : s₀.registry.toRegistryState.Drawn)
    (h : (kind.program P id data policy).run StoreOp.exec s₀ = (.ok r, s)) :
    ∃ c, s.registry.capsules.lookup id = some c ∧
      reusedBytes s₀ s c.segments = reuse s₀ policy data ∧
      Counts s id (if kind.isAsync then reuse s₀ policy data else 0) 0 := by
  have hends : ∃ stₙ sₙ, ((chunks SEGMENT_SIZE data).zipIdx.foldlM (writeChunk P policy) {}).run
      StoreOp.exec s₀ = (.ok stₙ, sₙ) ∧ Ends s₀ sₙ data.length stₙ.segmentIds policy id s ∧
      Counts s id (if kind.isAsync then stₙ.dedupStats.bytesSaved else 0) 0 := by
    have hnames : s₀.NamesDrawn := fun k x _ hx _ => hn k x hx
    have hw : (kind.program P id data policy).wp (Direct P) (fun _ _ => True)
        (fun r s => ∀ i, r = .ok i → ∃ stₙ sₙ, ((chunks SEGMENT_SIZE data).zipIdx.foldlM
          (writeChunk P policy) {}).run StoreOp.exec s₀ = (.ok stₙ, sₙ) ∧
            Ends s₀ sₙ data.length stₙ.segmentIds policy id s ∧
            Counts s id (if kind.isAsync then stₙ.dedupStats.bytesSaved else 0) 0) s₀ := by
      cases kind with
      | sync =>
          exact wp_writeCapsule_store (fun _ e s => nofun) fun stₙ sₙ s h he hcount _ _ _ =>
            ⟨stₙ, sₙ, h, he, hcount⟩
      | async memoryLimit arrivals =>
          exact wp_writeCapsuleAsync_store hnames (fun _ e s => nofun)
            fun stₙ sₙ s h he hcount _ _ _ => ⟨stₙ, sₙ, h, he, hcount⟩
    have hrun := wp_run hw
    rw [h] at hrun
    exact hrun r rfl
  obtain ⟨stₙ, sₙ, hall, he, hcounts⟩ := hends
  obtain ⟨hlist, hreuse⟩ := chunks_accounted hn (.start s₀) hall
  have hbytes : stₙ.dedupStats.bytesSaved = reuse s₀ policy data := hreuse.trans (Nat.zero_add _)
  obtain ⟨bytes, hcap⟩ := he.cap
  refine ⟨_, hcap, ?_, hbytes ▸ hcounts⟩
  rw [← hbytes, hlist]
  exact reusedBytes_congr fun x _ => Store.storedLen_of_unread (he.segments x)

/-- **The dedup counter.**  From a store whose content store names segments that were drawn, as in
every state of a history: after a write that succeeds, and for as long as the capsule lives, the
counter of the capsule says what the write reused if and only if that was nothing, or the write was
asynchronous and the registry was saved before it was reopened. -/
theorem dedupedBytes_exact_iff (hn : s₀.registry.toRegistryState.Drawn)
    (h : (kind.program P id data policy).run StoreOp.exec s₀ = (.ok r, s))
    {events : List LaterEvent} (hs : ∀ e ∈ events, e.Spares id) :
    (∃ c, s.registry.capsules.lookup id = some c ∧
      ∀ n, ((LaterEvent.replay s (events.take n)).registry.capsules.lookup id).map
        Capsule.dedupedBytes = some (reusedBytes s₀ s c.segments)) ↔
      reuse s₀ policy data = 0 ∨ kind.isAsync = true ∧ SavedFirst s events := by
  obtain ⟨c, hc, hreuse, hcounts⟩ := WriteKind.counts hn h
  have hprop : (∃ c, s.registry.capsules.lookup id = some c ∧
      ∀ n, ((LaterEvent.replay s (events.take n)).registry.capsules.lookup id).map
        Capsule.dedupedBytes = some (reusedBytes s₀ s c.segments)) ↔
      ∀ n, ((LaterEvent.replay s (events.take n)).registry.capsules.lookup id).map
        Capsule.dedupedBytes = some (reuse s₀ policy data) := by
    refine ⟨?_, fun hall => ⟨c, hc, hreuse.symm ▸ hall⟩⟩
    rintro ⟨c', hc', hall⟩
    obtain rfl : c = c' := Option.some.inj (hc.symm.trans hc')
    exact hreuse ▸ hall
  rw [hprop]
  cases hk : kind.isAsync with
  | false =>
      -- the counter is zero, in memory and on file
      rw [hk] at hcounts
      have hzero : ∀ n, ((LaterEvent.replay s (events.take n)).registry.capsules.lookup id).map
          Capsule.dedupedBytes = some 0 := fun n =>
        (hcounts.replay fun e he => hs e (List.mem_of_mem_take he)).memory
      refine ⟨fun hall => .inl (Option.some.inj ((hall 0).symm.trans (hzero 0))), ?_⟩
      rintro (h0 | ⟨hne, -⟩)
      · rw [h0]
        exact hzero
      · cases hne
  | true =>
      rw [hk, if_pos rfl] at hcounts
      rw [hcounts.kept_iff hs]
      simp only [true_and]

end

/-! ### The same bytes twice -/

/-- A capsule of three bytes. -/
def sampleShared : World .stored :=
  ((Task.command (.write ⟨0⟩ [1, 2, 3] {})).run (World.empty none)).2

theorem sampleShared_drawn : sampleShared.store.registry.toRegistryState.Drawn :=
  (History.drawn (K := sampleKeys.derive) (.run _ (.start none nofun))).memory

/-- Another one, that reuses its segment. -/
def sampleReused (kind : WriteKind) : Store .stored :=
  ((kind.program .stored ⟨1⟩ [1, 2, 3] {}).run StoreOp.exec sampleShared.store).2

/-- Written asynchronously, its counter is kept if a hash is registered before the restart. -/
theorem dedupedBytes_exact_iff_saved :
    ∃ c, (sampleReused (.async 8 .asGiven)).registry.capsules.lookup ⟨1⟩ = some c ∧
      ∀ n, ((LaterEvent.replay (sampleReused (.async 8 .asGiven))
        ([.op (.registerContent ⟨[]⟩ ⟨0⟩), .reopen].take n)).registry.capsules.lookup ⟨1⟩).map
          Capsule.dedupedBytes = some (reusedBytes sampleShared.store
            (sampleReused (.async 8 .asGiven)) c.segments) := by
  have hrun : (((WriteKind.async 8 .asGiven).program .stored ⟨1⟩ [1, 2, 3] {}).run StoreOp.exec
      sampleShared.store).1 = .ok ⟨1⟩ := rfl
  refine (dedupedBytes_exact_iff sampleShared_drawn (Prod.ext hrun rfl) fun e he => ?_).mpr
    (.inr ⟨rfl, .inl rfl⟩)
  rcases List.mem_cons.mp he with rfl | he
  · trivial
  · obtain rfl := List.mem_singleton.mp he
    trivial

/-- **Written synchronously**, it counts nothing, though it has reused three bytes. -/
theorem not_dedupedBytes_exact :
    ¬ ∀ (P : Primitives) (policy : Policy) (data : Bytes) (id r : CapsuleId) (kind : WriteKind)
      (s₀ s : Store P) (events : List LaterEvent), s₀.registry.toRegistryState.Drawn →
      (kind.program P id data policy).run StoreOp.exec s₀ = (.ok r, s) →
      (∀ e ∈ events, e.Spares id) →
      ∃ c, s.registry.capsules.lookup id = some c ∧
        ∀ n, ((LaterEvent.replay s (events.take n)).registry.capsules.lookup id).map
          Capsule.dedupedBytes = some (reusedBytes s₀ s c.segments) := by
  intro h
  have hrun : ((WriteKind.sync.program .stored ⟨1⟩ [1, 2, 3] {}).run StoreOp.exec
      sampleShared.store).1 = .ok ⟨1⟩ := rfl
  obtain ⟨c, hc, hall⟩ := h _ _ _ _ _ _ _ (sampleReused .sync) [] sampleShared_drawn
    (Prod.ext hrun rfl) fun e he => absurd he List.not_mem_nil
  have hsample : ((sampleReused .sync).registry.capsules.lookup ⟨1⟩).map (fun c =>
      (c.dedupedBytes, reusedBytes sampleShared.store (sampleReused .sync) c.segments)) =
      some (0, 3) := by decide +kernel
  have h0 : ((sampleReused .sync).registry.capsules.lookup ⟨1⟩).map Capsule.dedupedBytes =
      some (reusedBytes sampleShared.store (sampleReused .sync) c.segments) := hall 0
  rw [hc, Option.map_some, Option.some.injEq] at hsample h0
  rw [h0, Prod.mk.injEq] at hsample
  exact absurd (hsample.1.symm.trans hsample.2) (by decide)

end Space
