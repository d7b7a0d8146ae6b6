import Space.Native.AsyncSpec

/-!
# Native — AsyncRunSpec

The run of an asynchronous write against the discipline: committing a chunk, draining what has
arrived, and what follows when all tasks are done.

* `wp_commitSegment`: the three ways a chunk is committed.
* `wp_writeAsync`: whatever the order of arrival, a write leaves only references behind, and a
  write that fails has given back what it took on stored segments, never the last reference.
-/

namespace Space
open Support Prog

variable {P : Primitives} {D : Discipline} {policy : Policy} {data : Bytes} {g g₀ g₁ : Ghost}
  {fits : Bytes → Info → Prop} {st : AsyncState}

theorem mem_claims_token {t : NvramTransaction} {x : SegmentId} :
    x ∈ Ghost.claims (t.token ::ₘ g) ↔ (∃ p ∈ t.pending, p.segment.id = x) ∨ x ∈ g.claims := by
  simp [NvramTransaction.token, NvramTransaction.staged]

/-- A transaction says nothing that is dead. -/
theorem token_not_dying {t : NvramTransaction} (h : Ghost.Quiet g) {τ : Token}
    (hτ : τ ∈ t.token ::ₘ g) (y : SegmentId) (hash : Option ContentHash) :
    τ ≠ .dead y hash ∧ τ ≠ .bare y := by
  rcases Multiset.mem_cons.mp hτ with rfl | hτ
  · simp [NvramTransaction.token]
  · exact h.not_dying hτ y hash

namespace WritePipeline

/-! ### Committing a chunk -/

/-- What committing a chunk leaves. -/
def Committed (P : Primitives) (D : Discipline) (policy : Policy) (data : Bytes)
    (fits : Bytes → Info → Prop) (g₀ : Ghost) (st : AsyncState) :
    Except Error (CommitOutcome × NvramTransaction × Table ContentHash SegmentId) → Ghost → Prop
  | .ok (outcome, t, staged), g => ∃ g₁, g = t.token ::ₘ g₁ ∧
      Staging P D policy data fits g₀ (st.committed outcome t staged) g₁
  | .error _, g => ∃ g₁, g = st.transaction.token ::ₘ g₁ ∧
      Staging P D policy data fits g₀ st g₁

theorem wp_stageNew (A : D.AcceptsAsync P policy data fits) (hso : D.solo)
    {prepared : SegmentPrepared} (h : Staging P D policy data fits g₀ st g₁)
    (hp : st.ordered.lookup st.nextIndex = some prepared)
    (ha : policy.dedupe = true → .absent prepared.contentHash ∈ g₁ ∧
      st.stagedContent.lookup prepared.contentHash = none) :
    (stageNew policy prepared st.transaction st.stagedContent).wp (Token.moves D)
      (Token.may D data) (Committed P D policy data fits g₀ st) (st.transaction.token ::ₘ g₁) := by
  unfold stageNew
  refine wp_bind.mpr (wp_op .allocSegment trivial fun _ _ hm => ?_)
  obtain ⟨(x : SegmentId), rfl, hx, hk, rfl⟩ := hm
  have hx₁ : ∀ p ∈ st.transaction.pending, p.segment.id ≠ x := fun p hp e =>
    hx (mem_claims_token.mpr (.inl ⟨p, hp, e⟩))
  refine wp_bind.mpr (wp_op (.appendSegment st.transaction x prepared.finalData)
    ⟨hso, Multiset.mem_cons_self _ _, Multiset.mem_cons_of_mem (Multiset.mem_cons_self _ _),
      h.active⟩ fun _ _ hm => ?_)
  obtain ⟨rfl, rfl⟩ := hm
  rw [Multiset.erase_cons_head, Multiset.erase_cons_head]
  set s₀ := Segment.appended x st.transaction.currentOffset (asU32 prepared.finalData.length)
  set t : NvramTransaction := { st.transaction with
    pending := st.transaction.pending ++ [⟨s₀, prepared.finalData⟩]
    currentOffset := st.transaction.currentOffset + prepared.finalData.length } with ht
  set s := s₀.describe prepared.compResult
    (if policy.dedupe = true then some prepared.contentHash else none) prepared.encryptionMeta
    with hs
  have hdesc : s.id = x ∧ s.offset = s₀.offset := by
    rw [hs]; unfold Segment.describe
    cases prepared.encryptionMeta <;> exact ⟨rfl, rfl⟩
  have hset : t.setSegmentMetadata x s = .ok { t with
      pending := st.transaction.pending ++ [⟨s, prepared.finalData⟩] } :=
    withSegmentMut_first (t := t) (p := ⟨s₀, prepared.finalData⟩) (b := []) h.active rfl rfl hx₁
  have htok : (.txn st.transaction.baseOffset
      (st.transaction.currentOffset + prepared.finalData.length)
      (st.transaction.staged ++ [⟨x, st.transaction.currentOffset, prepared.finalData⟩]) : Token) =
      NvramTransaction.token { t with
        pending := st.transaction.pending ++ [⟨s, prepared.finalData⟩] } := by
    simp only [NvramTransaction.token, NvramTransaction.staged, List.map_append, List.map_cons,
      List.map_nil, hdesc]
    rfl
  refine wp_bind.mpr (wp_lift.mpr ?_)
  rw [hset, htok]
  refine ⟨g₁, rfl, ?_⟩
  exact h.stage A hp hs hx₁
    (fun i k => hk i (Multiset.mem_cons_of_mem k)) ha

/-- **Committing a chunk**: a staged segment is reused, or a stored one, or a new one is staged. -/
theorem wp_commitSegment (A : D.AcceptsAsync P policy data fits) (hso : D.solo)
    (hmax : (chunks SEGMENT_SIZE data).length ≤ u32Max)
    {prepared : SegmentPrepared} (h : Staging P D policy data fits g₀ st g₁)
    (hp : st.ordered.lookup st.nextIndex = some prepared) :
    (commitSegment policy prepared st.transaction st.stagedContent).wp (Token.moves D)
      (Token.may D data) (Committed P D policy data fits g₀ st) (st.transaction.token ::ₘ g₁) := by
  unfold commitSegment
  by_cases hd : policy.dedupe = true
  · rw [if_pos hd]
    cases hst : st.stagedContent.lookup prepared.contentHash with
    | some x =>
        -- a segment of this write
        have hr := (h.staged prepared.contentHash x).mp hst
        rw [h.registrations] at hr
        obtain ⟨q, hq, hreg⟩ := List.mem_filterMap.mp hr
        obtain ⟨hash, hh, e⟩ := Option.map_eq_some_iff.mp hreg
        cases e
        obtain ⟨a, p, b, ht, hid, ha⟩ := exists_first ⟨q, hq, rfl⟩
        have hpq : p = q := by
          have hpm : p ∈ st.transaction.pending := by rw [ht]; simp
          exact List.inj_on_of_nodup_map h.ids hpm hq hid
        subst hpq
        have hfind : st.transaction.pendingSegment p.segment.id = some p.segment := by
          unfold NvramTransaction.pendingSegment
          rw [ht, List.find?_append, List.find?_eq_none.mpr fun q hq => by simpa using ha q hq]
          simp
        simp only [hfind, withSegmentMut_first h.active ht rfl ha]
        refine ⟨g₁, ?_, h.reuse A hmax hp hd ht hh⟩
        exact congrArg (· ::ₘ g₁) (token_modify (s := p.segment.reuse) ht rfl rfl).symm
    | none =>
        refine wp_bind.mpr (wp_op (.lookupContent prepared.contentHash) trivial fun _ g' hm => ?_)
        rcases hm with ⟨rfl, rfl⟩ | ⟨x, i, rfl, hh, hlegit, hhit, hx, rfl⟩
        · -- a new one
          rw [if_pos hso, Multiset.cons_swap]
          exact wp_stageNew A hso (h.learn trivial) hp fun _ => ⟨Multiset.mem_cons_self _ _, hst⟩
        · -- a stored one
          obtain ⟨chunk, view, hc, htake, hlt, hhash, hprep⟩ := h.nextChunk hp
          have hx₁ : ∀ p ∈ st.transaction.pending, p.segment.id ≠ x := fun p hp e =>
            hx (mem_claims_token.mpr (.inl ⟨p, hp, e⟩))
          have hfit : fits chunk i := A.hit chunk hc view _ _ _ hprep hd i hlegit
            (hhash ▸ hhit) (hhash ▸ hh)
          have h' := h.learn (τ := .knows x i) trivial
          rw [Multiset.cons_swap]
          refine wp_bind.mpr (wp_op (.incrementRefcount x) ⟨⟨i, by simp⟩, fun _ τ hτ y hash =>
            token_not_dying h'.quiet hτ y hash⟩ fun _ g' hm => ?_)
          rcases hm with ⟨s, rfl, ⟨hr, rfl⟩ | rfl⟩ | ⟨e, rfl, rfl⟩
          · rw [Multiset.cons_swap]
            refine ⟨_, rfl, h'.hit htake (Multiset.mem_cons_self _ _) hfit (.inr ?_) hx₁⟩
            exact Ghost.mem_of_mem_cons (hr hso) (by simp [NvramTransaction.token])
          · refine ⟨.ref x ::ₘ .listed x ::ₘ .knows x i ::ₘ g₁, ?_,
              (h'.learn (τ := .listed x) trivial).hit htake (by simp) hfit (.inl (by simp)) hx₁⟩
            rw [Multiset.cons_swap (Token.listed x), Multiset.cons_swap (Token.ref x)]
          · exact ⟨_, rfl, h'⟩
  · rw [if_neg hd]
    exact wp_stageNew A hso h hp fun e => absurd e hd

/-! ### Draining what has arrived -/

/-- What the coordinator owns. -/
def Coordinates (P : Primitives) (D : Discipline) (policy : Policy) (data : Bytes)
    (fits : Bytes → Info → Prop) (g₀ : Ghost) (st : AsyncState) (g : Ghost) : Prop :=
  ∃ g₁, g = st.transaction.token ::ₘ g₁ ∧ Staging P D policy data fits g₀ st g₁

theorem wp_drain (A : D.AcceptsAsync P policy data fits) (hso : D.solo)
    (hmax : (chunks SEGMENT_SIZE data).length ≤ u32Max) :
    ∀ (n : Nat) {st : AsyncState} {g : Ghost}, Coordinates P D policy data fits g₀ st g →
      (drain policy n st).wp (Token.moves D) (Token.may D data)
        (fun r g' => ∃ st', r = .ok st' ∧ Coordinates P D policy data fits g₀ st' g') g
  | 0, st, _, h => ⟨st, rfl, h⟩
  | n + 1, st, _, ⟨g₁, rfl, h⟩ => by
      unfold drain
      cases hp : st.ordered.lookup st.nextIndex with
      | none => exact ⟨st, rfl, g₁, rfl, h⟩
      | some prepared =>
          refine wp_bind.mpr (wp_attempt.mpr (wp_mono (wp_commitSegment A hso hmax h hp)
            fun r g' hr => ?_))
          cases r with
          | error e =>
              obtain ⟨g₁, rfl, h⟩ := hr
              exact ⟨_, rfl, g₁, rfl, { h with }⟩
          | ok o =>
              obtain ⟨outcome, t, staged⟩ := o
              exact wp_drain A hso hmax n hr

/-- Preparing a chunk touches nothing. -/
theorem wp_prepareSegment {chunk : Bytes} {index : Nat}
    {Q : Except Error SegmentPrepared → Ghost → Prop}
    (hok : ∀ prepared view, prepared.contentHash = hashContent P view →
      Prepared P D policy chunk view prepared.compResult prepared.finalData
        prepared.encryptionMeta → Q (.ok prepared) g)
    (herr : ∀ e, Q (.error e) g) :
    (prepareSegment P policy (chunk, index)).wp (Token.moves D) (Token.may D data) Q g := by
  unfold prepareSegment
  refine wp_bind.mpr (wp_lift.mpr ?_)
  cases hcomp : compressSegment P chunk policy.compression with
  | error e => exact herr _
  | ok vr =>
  obtain ⟨view, r⟩ := vr
  refine wp_bind.mpr (wp_encryptionKey fun key hkey => ?_)
  refine wp_bind.mpr (wp_lift.mpr ?_)
  cases hseal : sealView P key view (hashContent P view) with
  | error e => exact herr _
  | ok pm =>
  obtain ⟨payload, m⟩ := pm
  exact hok _ view rfl ⟨hcomp, key, hkey, hseal⟩

/-- **A task completes.** -/
theorem wp_arrive (A : D.AcceptsAsync P policy data fits) (hso : D.solo)
    (hmax : (chunks SEGMENT_SIZE data).length ≤ u32Max) {total index : Nat} {chunk : Bytes}
    (hc : (chunks SEGMENT_SIZE data)[index]? = some chunk)
    (h : Coordinates P D policy data fits g₀ st g) :
    (arrive P policy total st (chunk, index)).wp (Token.moves D) (Token.may D data)
      (fun r g' => ∃ st', r = .ok st' ∧ Coordinates P D policy data fits g₀ st' g') g := by
  unfold arrive
  refine wp_bind.mpr (wp_attempt.mpr (wp_prepareSegment (fun prepared view hh hprep => ?_)
    fun e => ?_))
  · show Prog.wp _ _ _ (if st.commitError.isSome = true then _ else _) g
    split
    · exact ⟨st, rfl, h⟩
    · obtain ⟨g₁, rfl, h⟩ := h
      refine wp_drain A hso hmax total ⟨g₁, rfl, { h with ordered := fun i p hp => ?_ }⟩
      rcases Table.lookup_insert_eq_some.mp hp with ⟨rfl, rfl⟩ | ⟨-, hp⟩
      · exact ⟨chunk, view, hc, hh, hprep⟩
      · exact h.ordered i p hp
  · obtain ⟨g₁, rfl, h⟩ := h
    exact ⟨_, rfl, g₁, rfl, { h with }⟩

/-! ### Giving back -/

/-- A thread that began with `g₀` has references to give back, none of which is the last. -/
def Owes (g₀ : Ghost) (l : List SegmentId) (g : Ghost) : Prop :=
  ∀ x ∈ l, g₀.count (.ref x) + l.count x ≤ g.count (.ref x) ∧
    (.listed x ∈ g ∨ 0 < g₀.count (.ref x))

theorem wp_releaseIncrements {l : List SegmentId} {Q : Except Error Unit → Ghost → Prop}
    (ht : D.tight) (hq : Ghost.Quiet g) (ho : Owes g₀ l g)
    (h : ∀ g', Ghost.Quiet g' → Q (.ok ()) g') :
    (releaseIncrements l).wp (Token.moves D) (Token.may D data) Q g := by
  unfold releaseIncrements
  refine wp_foldlM (fun rest _ g => Ghost.Quiet g ∧ Owes g₀ rest g) ?_ (fun _ g hg => h g hg.1)
    _ _ _ ⟨hq, fun x hx => ?_⟩
  · rintro x rest - g ⟨hq, ho⟩
    obtain ⟨hc, hl⟩ := ho x List.mem_cons_self
    rw [List.count_cons_self] at hc
    have hx : .ref x ∈ g := Multiset.count_pos.mp (by omega)
    refine wp_bind.mpr (wp_op (.decrementRefcount x) ⟨hx, ht⟩ fun _ g' hm => ?_)
    obtain ⟨(s : Segment), rfl, hlast, rfl⟩ := hm
    rw [if_neg fun h0 => by
      obtain ⟨h₁, h₂⟩ := hlast h0
      rcases hl with hl | hl
      · exact h₂ hl
      · omega]
    refine ⟨fun τ hτ => hq τ (Multiset.mem_of_mem_erase hτ), fun y hy => ?_⟩
    obtain ⟨hc', hl'⟩ := ho y (List.mem_cons_of_mem _ hy)
    refine ⟨?_, hl'.imp_left fun k => (Multiset.mem_erase_of_ne (by simp)).mpr k⟩
    by_cases e : y = x
    · subst e
      rw [Multiset.count_erase_self]; omega
    · rw [Multiset.count_erase_of_ne (by simpa using e)]
      rw [List.count_cons_of_ne (Ne.symm e)] at hc'
      exact hc'
  · rw [List.count_reverse]
    exact ho x (List.mem_reverse.mp hx)

/-! ### Registering and taking back -/

/-- What committing and registering pending segments makes of `h`. -/
structure Grown (h : Ghost) (l : List PendingSegment) (g : Ghost) : Prop where
  quiet : Ghost.Quiet g
  keep : ∀ τ ∈ h, (∀ hash, τ ≠ .absent hash) → τ ∈ g
  more : ∀ x, h.count (.ref x) ≤ g.count (.ref x)
  refs : ∀ p ∈ l, p.segment.refCount ≤ g.count (.ref p.segment.id)
  known : ∀ p ∈ l, .knows p.segment.id ⟨p.segment.form, p.data⟩ ∈ g
  regs : ∀ p ∈ l, ∀ hash, p.segment.contentHash = some hash → .reg p.segment.id hash ∈ g

/-- The tokens of committed segments that are to be registered. -/
def owned (l : List PendingSegment) : Ghost :=
  (l.map fun p => Token.own p.segment p.data : List Token)

theorem owned_cons (p : PendingSegment) (l : List PendingSegment) :
    owned (p :: l) = .own p.segment p.data ::ₘ owned l := rfl

/-- **Registering** what was committed. -/
theorem wp_registerAll (hso : D.solo) {all : List (ContentHash × SegmentId)}
    {increments : List SegmentId} {Q : Except Error Unit → Ghost → Prop} :
    ∀ {l : List PendingSegment} {registered : List (ContentHash × SegmentId)} {h : Ghost},
      Ghost.Quiet h → (∀ p ∈ l, ∃ hash, p.segment.contentHash = some hash ∧ .absent hash ∈ h) →
      (∀ p ∈ l, D.legit ⟨p.segment.form, p.data⟩) →
      ((l.filterMap PendingSegment.registration).map Prod.fst).Nodup →
      (∀ g', Grown h l g' → Q (.ok ()) g') →
      (registerAll all increments (l.filterMap PendingSegment.registration) registered).wp
        (Token.moves D) (Token.may D data) Q (owned l + h)
  | [], _, h, hh, _, _, _, hq => by
      refine hq _ ?_
      rw [show owned [] + h = h from zero_add h]
      exact ⟨hh, fun _ k _ => k, fun _ => Nat.le_refl _, by simp, by simp, by simp⟩
  | p :: l, registered, h, hh, ha, hl, hnd, hq => by
      obtain ⟨hash, hch, habs⟩ := ha p List.mem_cons_self
      have hreg : p.registration = some (hash, p.segment.id) := by
        rw [PendingSegment.registration, hch]; rfl
      rw [List.filterMap_cons_some hreg, List.map_cons, List.nodup_cons] at hnd
      rw [List.filterMap_cons_some hreg, owned_cons, Multiset.cons_add]
      unfold registerAll
      refine wp_bind.mpr (wp_attempt.mpr (wp_op (.registerContent hash p.segment.id)
        ⟨p.segment, p.data, Multiset.mem_cons_self _ _, rfl, hch, hl p List.mem_cons_self,
          fun _ => Multiset.mem_cons_of_mem (Multiset.mem_add.mpr (.inr habs))⟩ fun _ g' hm => ?_))
      obtain ⟨rfl, hg⟩ := hm
      rw [hg p.segment p.data (Multiset.mem_cons_self _ _) rfl, Multiset.erase_cons_head,
        if_pos hso, Multiset.filter_add]
      -- what is left to register, and everything else
      have hown : (owned l).filter (· ≠ .absent hash) = owned l :=
        Multiset.filter_eq_self.mpr fun τ hτ => by
          obtain ⟨q, -, rfl⟩ := List.mem_map.mp (Multiset.mem_coe.mp hτ)
          simp
      rw [hown]
      set h' : Ghost := .knows p.segment.id ⟨p.segment.form, p.data⟩ ::ₘ
        (Multiset.replicate p.segment.refCount (.ref p.segment.id) +
          ({.reg p.segment.id hash} + h.filter (· ≠ .absent hash))) with hh'
      rw [show (.knows p.segment.id ⟨p.segment.form, p.data⟩ ::ₘ
        (Multiset.replicate p.segment.refCount (.ref p.segment.id) +
          ({.reg p.segment.id hash} + (owned l + h.filter (· ≠ .absent hash)))) : Ghost) =
        owned l + h' by
          rw [hh', Multiset.add_cons]; congr 1
          simp only [← add_assoc, add_comm]]
      have hmem : ∀ τ ∈ h, τ ≠ .absent hash → τ ∈ h' := fun τ hτ hne => by
        simp [hh', hτ, hne]
      refine wp_registerAll hso (l := l) (fun τ hτ => ?_) (fun q hq' => ?_)
        (fun q hq' => hl q (List.mem_cons_of_mem _ hq')) hnd.2 fun g' G => hq g' ?_
      · rcases Multiset.mem_cons.mp hτ with rfl | hτ
        · exact .inl trivial
        rcases Multiset.mem_add.mp hτ with hτ | hτ
        · exact .inr ⟨_, Multiset.eq_of_mem_replicate hτ⟩
        rcases Multiset.mem_add.mp hτ with hτ | hτ
        · rw [Multiset.mem_singleton.mp hτ]; exact .inl trivial
        · exact hh τ (Multiset.mem_of_mem_filter hτ)
      · obtain ⟨hash', hch', habs'⟩ := ha q (List.mem_cons_of_mem _ hq')
        refine ⟨hash', hch', hmem _ habs' ?_⟩
        rintro ⟨⟩
        refine hnd.1 (List.mem_map.mpr ⟨(hash, q.segment.id), ?_, rfl⟩)
        exact List.mem_filterMap.mpr ⟨q, hq', by rw [PendingSegment.registration, hch']; rfl⟩
      · refine ⟨G.quiet, fun τ hτ hne => G.keep τ (hmem τ hτ (hne hash)) hne, fun x => ?_,
          fun q hq' => ?_, fun q hq' => ?_, fun q hq' hash' hch' => ?_⟩
        · refine Nat.le_trans ?_ (G.more x)
          have : (h.filter (· ≠ .absent hash)).count (.ref x) = h.count (.ref x) :=
            Multiset.count_filter_of_pos (by simp)
          simp only [hh', Multiset.count_cons, Multiset.count_add, this]
          omega
        · rcases List.mem_cons.mp hq' with rfl | hq'
          · refine Nat.le_trans ?_ (G.more _)
            simp only [hh', Multiset.count_cons, Multiset.count_add,
              Multiset.count_replicate_self]
            omega
          · exact G.refs q hq'
        · rcases List.mem_cons.mp hq' with rfl | hq'
          · exact G.keep _ (by simp [hh']) (by simp)
          · exact G.known q hq'
        · rcases List.mem_cons.mp hq' with rfl | hq'
          · rw [hch] at hch'; cases hch'
            exact G.keep _ (by simp [hh']) (by simp)
          · exact G.regs q hq' hash' hch'

/-- Taking back what was registered. -/
theorem wp_unregister {hash : ContentHash} {x : SegmentId} {Q : Except Error Unit → Ghost → Prop}
    (hq : Ghost.Quiet g) (hr : .reg x hash ∈ g)
    (h : Q (.ok ()) ((g.erase (.reg x hash)).filter (· ≠ .ref x))) :
    (unregister (hash, x)).wp (Token.moves D) (Token.may D data) Q g := by
  have hb : ∀ τ ∈ g, ∀ o, τ ≠ .dead x o ∧ τ ≠ .bare x := fun τ hτ o => hq.not_dying hτ x o
  unfold unregister
  refine wp_bind.mpr (wp_bind.mpr (wp_op (.deregisterContent hash x) (.inr hr) fun _ g' hm => ?_))
  obtain ⟨b, rfl, rfl⟩ := hm
  rw [if_neg fun k => (hb _ k (some hash)).1 rfl]
  refine wp_bind.mpr (wp_op (.removeSegment x) (.inr (.inr (Multiset.mem_cons_self _ _)))
    fun _ g' hm => ?_)
  obtain ⟨s, rfl, rfl⟩ := hm
  rw [if_neg fun k => (hb _ (Multiset.mem_of_mem_erase
      (Ghost.mem_of_mem_cons k (by simp))) none).2 rfl,
    if_neg fun k => (hb _ (Multiset.mem_of_mem_erase
      (Ghost.mem_of_mem_cons k (by simp))) none).1 rfl, Multiset.erase_cons_head]
  exact h

/-! ### The end of the run -/

/-- What a commit leaves, as segments to be registered and everything else. -/
theorem committed_split {h : Ghost} (hh : Ghost.Quiet h) : ∀ {l : List PendingSegment},
    (∀ p ∈ l, p.segment.contentHash ≠ none) →
      (l.map PendingSegment.tokens).sum + h = owned l + h
  | [], _ => rfl
  | p :: l, hl => by
      rw [List.map_cons, List.sum_cons, add_assoc,
        committed_split hh fun q hq => hl q (List.mem_cons_of_mem _ hq), owned_cons,
        PendingSegment.tokens, if_neg (hl p List.mem_cons_self), Multiset.singleton_add,
        Multiset.cons_add]

/-- Segments that are not registered are settled by the commit. -/
theorem committed_grown {h : Ghost} (hh : Ghost.Quiet h) : ∀ {l : List PendingSegment},
    (∀ p ∈ l, p.segment.contentHash = none) →
      Grown h l ((l.map PendingSegment.tokens).sum + h)
  | [], _ => by
      rw [List.map_nil, List.sum_nil, zero_add]
      exact ⟨hh, fun _ k _ => k, fun _ => Nat.le_refl _, by simp, by simp, by simp⟩
  | p :: l, hl => by
      have G := committed_grown hh fun q hq => hl q (List.mem_cons_of_mem _ hq)
      rw [List.map_cons, List.sum_cons, add_assoc, PendingSegment.tokens,
        if_pos (hl p List.mem_cons_self), Multiset.cons_add]
      set g := (l.map PendingSegment.tokens).sum + h
      have hmem : ∀ τ ∈ g, τ ∈ (.knows p.segment.id ⟨p.segment.form, p.data⟩ ::ₘ
          (Multiset.replicate p.segment.refCount (.ref p.segment.id) + g) : Ghost) :=
        fun τ hτ => by simp [hτ]
      have hle : ∀ x, g.count (.ref x) ≤ (.knows p.segment.id ⟨p.segment.form, p.data⟩ ::ₘ
          (Multiset.replicate p.segment.refCount (.ref p.segment.id) + g) : Ghost).count (.ref x) :=
        fun x => by simp only [Multiset.count_cons, Multiset.count_add]; omega
      refine ⟨fun τ hτ => ?_, fun τ hτ hne => hmem τ (G.keep τ hτ hne),
        fun x => (G.more x).trans (hle x), fun q hq => ?_, fun q hq => ?_, fun q hq hash hch => ?_⟩
      · rcases Multiset.mem_cons.mp hτ with rfl | hτ
        · exact .inl trivial
        rcases Multiset.mem_add.mp hτ with hτ | hτ
        · exact .inr ⟨_, Multiset.eq_of_mem_replicate hτ⟩
        · exact G.quiet τ hτ
      · rcases List.mem_cons.mp hq with rfl | hq
        · simp only [Multiset.count_cons, Multiset.count_add, Multiset.count_replicate_self]
          omega
        · exact (G.refs q hq).trans (hle _)
      · rcases List.mem_cons.mp hq with rfl | hq
        · exact Multiset.mem_cons_self _ _
        · exact hmem _ (G.known q hq)
      · rw [hl q hq] at hch; cases hch

/-- **All tasks are done.** -/
theorem wp_finishAsync (A : D.AcceptsAsync P policy data fits) (hso : D.solo) (ht : D.tight)
    (hmax : (chunks SEGMENT_SIZE data).length ≤ u32Max) {id : CapsuleId} {size : Nat}
    (h : Coordinates P D policy data fits g₀ st g) {Q : Except Error CapsuleId → Ghost → Prop}
    (hq : ∀ r g', Ghost.Quiet g' → Q r g') :
    (finishAsync id size policy (chunks SEGMENT_SIZE data).length st).wp (Token.moves D)
      (Token.may D data) Q g := by
  classical
  obtain ⟨g₁, rfl, h⟩ := h
  have howes : Owes g₀ st.dedupeIncrements g₁ := fun x hx =>
    ⟨Nat.le_of_eq (h.refs x).symm, (h.known x hx).2⟩
  unfold finishAsync
  cases herr : AsyncState.error st (chunks SEGMENT_SIZE data).length with
  | some e =>
      refine wp_bind.mpr (wp_bind.mpr (wp_op (.rollback st.transaction)
        ⟨hso, Multiset.mem_cons_self _ _, h.active⟩ fun _ g' hm => ?_))
      obtain ⟨⟨t', rfl⟩, rfl⟩ := hm
      rw [Multiset.erase_cons_head]
      exact wp_bind.mpr (wp_releaseIncrements ht h.quiet howes fun g' hq' => hq _ g' hq')
  | none =>
      have hall : st.nextIndex = (chunks SEGMENT_SIZE data).length := by
        by_contra hne
        unfold AsyncState.error at herr
        rw [if_pos hne] at herr
        cases hc : st.commitError <;> rw [hc] at herr
        · cases hf : (List.range (chunks SEGMENT_SIZE data).length).findSome?
            fun i => st.taskErrors.lookup i <;> rw [hf] at herr <;> cases herr
        · cases herr
      have hids : st.segmentIds.length ≤ u32Max := by rw [h.next, hall]; exact hmax
      have hready : ∀ p ∈ st.transaction.pending, p.Ready D := fun p hp =>
        (h.pending p hp).ready A hids
      obtain ⟨infos, hent, hfits⟩ := h.fit
      rw [hall, List.take_length] at hfits
      refine wp_bind.mpr (wp_attempt.mpr (wp_op (.commit st.transaction)
        ⟨hso, Multiset.mem_cons_self _ _, h.active, hready⟩ fun _ g' hm => ?_))
      obtain ⟨⟨t', rfl⟩, rfl⟩ := hm
      rw [Multiset.erase_cons_head]
      -- what follows once everything is registered
      have hrest : ∀ g₂, Grown g₁ st.transaction.pending g₂ →
          (createWritten id size policy st).wp (Token.moves D) (Token.may D data) Q g₂ :=
        fun g₂ G => by
        refine wp_bind.mpr (wp_attempt.mpr (wp_op
          (.createCapsuleWithSegments id size st.segmentIds policy) ⟨fun x => ?_,
            G.quiet.not_idle, infos, hent.imp fun x i k => ?_, A.sound infos hfits⟩
          fun _ g' hm => ?_))
        · by_cases hx : ∃ p ∈ st.transaction.pending, p.segment.id = x
          · obtain ⟨p, hp, rfl⟩ := hx
            rw [← (h.pending p hp).refs]
            exact G.refs p hp
          · rw [h.entries x fun p hp e => hx ⟨p, hp, e⟩]
            refine Nat.le_trans ?_ (G.more x)
            rw [h.refs]; omega
        · rcases k with k | ⟨p, hp, rfl, rfl⟩
          · exact G.keep _ k (by simp)
          · exact G.known p hp
        · rcases hm with ⟨rfl, rfl⟩ | ⟨e, rfl, rfl⟩
          · have hq' : Ghost.Quiet ((g₂.filter fun τ => ∀ y h, τ ≠ .reg y h) -
                (st.segmentIds.map Token.ref : Multiset Token)) := fun τ k =>
              G.quiet τ (Multiset.mem_of_mem_filter
                (Multiset.mem_of_le (Multiset.sub_le_self _ _) k))
            show Prog.wp _ _ Q (if 0 < st.dedupStats.bytesSaved then _ else _) _
            split
            · refine wp_bind.mpr (wp_mapError.mpr (wp_op (.addDedupedBytes id _) trivial
                fun _ g' hm => ?_))
              obtain ⟨rfl, rfl⟩ := hm
              exact hq _ _ hq'
            · exact hq _ _ hq'
          · -- the capsule was not created: everything is taken back
            refine wp_bind.mpr (wp_foldlM (fun rest _ g => Ghost.Quiet g ∧
              Owes g₀ st.dedupeIncrements g ∧ (rest.map Prod.fst).Nodup ∧
              ∀ r ∈ rest, .reg r.2 r.1 ∈ g ∧ r.2 ∉ st.dedupeIncrements) ?_ ?_ _ _ _
              ⟨G.quiet, fun x hx => ?_, h.hashes, fun r hr => ?_⟩)
            · rintro ⟨hash, x⟩ rest - g ⟨hqg, how, hnd, hr⟩
              obtain ⟨hrx, hx⟩ := hr _ List.mem_cons_self
              rw [List.map_cons, List.nodup_cons] at hnd
              refine wp_unregister hqg hrx ⟨fun τ hτ => ?_, fun y hy => ?_, hnd.2, fun r hr' => ?_⟩
              · exact hqg τ (Multiset.mem_of_mem_erase (Multiset.mem_of_mem_filter hτ))
              · obtain ⟨h₁, h₂⟩ := how y hy
                have hne : y ≠ x := by rintro rfl; exact hx hy
                refine ⟨?_, h₂.imp_left fun k => Multiset.mem_filter.mpr
                  ⟨(Multiset.mem_erase_of_ne (by simp)).mpr k, by simp⟩⟩
                rw [Multiset.count_filter_of_pos (by simpa using hne),
                  Multiset.count_erase_of_ne (by simp)]
                exact h₁
              · obtain ⟨h₁, h₂⟩ := hr r (List.mem_cons_of_mem _ hr')
                refine ⟨Multiset.mem_filter.mpr ⟨(Multiset.mem_erase_of_ne ?_).mpr h₁, by simp⟩, h₂⟩
                intro e
                cases e
                exact hnd.1 (List.mem_map_of_mem hr')
            · rintro - g ⟨hqg, how, -, -⟩
              exact wp_bind.mpr (wp_releaseIncrements ht hqg how fun g' hq' => hq _ g' hq')
            · obtain ⟨h₁, h₂⟩ := howes x hx
              exact ⟨h₁.trans (G.more x), h₂.imp_left fun k => G.keep _ k (by simp)⟩
            · rw [h.registrations] at hr
              obtain ⟨p, hp, hreg⟩ := List.mem_filterMap.mp hr
              obtain ⟨hash, hch, rfl⟩ := Option.map_eq_some_iff.mp hreg
              exact ⟨G.regs p hp hash hch, h.apart p hp⟩
      by_cases hd : policy.dedupe = true
      · have hsome : ∀ p ∈ st.transaction.pending, p.segment.contentHash ≠ none := fun p hp e => by
          rw [(h.pending p hp).contentHash] at e
          rw [hd] at e; cases e
        rw [committed_split h.quiet hsome]
        refine wp_bind.mpr ?_
        have hreg := h.registrations
        rw [hreg]
        refine wp_registerAll hso h.quiet (fun p hp => ?_) (fun p hp => (hready p hp).1)
          (hreg ▸ h.hashes) fun g₂ G => ?_
        · obtain ⟨hash, hch⟩ := Option.ne_none_iff_exists'.mp (hsome p hp)
          refine ⟨hash, hch, h.absent (hash, p.segment.id) ?_⟩
          rw [hreg]
          exact List.mem_filterMap.mpr ⟨p, hp, by rw [PendingSegment.registration, hch]; rfl⟩
        · exact hrest g₂ G
      · have hnone : ∀ p ∈ st.transaction.pending, p.segment.contentHash = none := fun p hp =>
          (h.pending p hp).contentHash.mpr (Bool.eq_false_iff.mpr hd)
        have hreg : st.pendingRegistrations = [] := by
          rw [h.registrations]
          refine List.filterMap_eq_nil_iff.mpr fun p hp => ?_
          rw [PendingSegment.registration, hnone p hp]; rfl
        rw [hreg]
        exact hrest _ (committed_grown h.quiet hnone)

/-- **An asynchronous write**, whatever the order its tasks complete in, leaves only references. -/
theorem wp_writeAsync (A : D.AcceptsAsync P policy data fits) (hso : D.solo) (ht : D.tight)
    (hmax : (chunks SEGMENT_SIZE data).length ≤ u32Max) {limit : Nat}
    {arrivals : Order (Bytes × Nat)} {id : CapsuleId} (h : Ghost.Quiet g₀)
    {Q : Except Error CapsuleId → Ghost → Prop} (hq : ∀ r g', Ghost.Quiet g' → Q r g') :
    (writeCapsuleWithPolicyAsync P limit arrivals id data policy).wp (Token.moves D)
      (Token.may D data) Q g₀ := by
  classical
  unfold writeCapsuleWithPolicyAsync
  simp only [List.length_zipIdx]
  split
  · next h0 =>
      have hnil : chunks SEGMENT_SIZE data = [] := List.length_eq_zero_iff.mp h0
      refine wp_bind.mpr (wp_mapError.mpr (wp_op (.createCapsuleWithSegments id 0 [] policy)
        ⟨fun _ => Nat.zero_le _, h.not_idle, [], .nil, A.sound [] (hnil ▸ .nil)⟩ fun _ g' hm => ?_))
      rcases hm with ⟨rfl, rfl⟩ | ⟨e, rfl, rfl⟩
      · refine hq _ _ fun τ k => h τ (Multiset.mem_of_mem_filter
          (Multiset.mem_of_le (Multiset.sub_le_self _ _) k))
      · exact hq _ _ h
  · refine wp_bind.mpr (wp_op .beginTransaction ⟨hso, h.txns⟩ fun _ g' hm => ?_)
    obtain ⟨(t : NvramTransaction), rfl, hp, hf, -, rfl⟩ := hm
    split
    · refine wp_bind.mpr (wp_bind.mpr (wp_op (.rollback t)
        ⟨hso, Multiset.mem_cons_self _ _, hf⟩ fun _ g' hm => ?_))
      obtain ⟨⟨t', rfl⟩, rfl⟩ := hm
      rw [Multiset.erase_cons_head]
      exact hq _ _ h
    · refine wp_bind.mpr (wp_foldlM (fun rest st g =>
        (∀ c ∈ rest, (chunks SEGMENT_SIZE data)[c.2]? = some c.1) ∧
          Coordinates P D policy data fits g₀ st g) ?_ ?_ _ _ _ ⟨fun c hc => ?_, g₀, rfl, ?_⟩)
      · rintro ⟨chunk, index⟩ rest st g ⟨hr, hst⟩
        refine wp_mono (wp_arrive A hso hmax (hr _ List.mem_cons_self) hst) fun r g' hr' => ?_
        obtain ⟨st', rfl, hst'⟩ := hr'
        exact ⟨fun c hc => hr c (List.mem_cons_of_mem _ hc), hst'⟩
      · rintro st g ⟨-, hst⟩
        exact wp_finishAsync A hso ht hmax hst hq
      · exact List.mem_zipIdx_iff_getElem?.mp ((Order.mem_reorder arrivals).mp hc)
      · exact {
          active := hf
          quiet := h
          refs := fun _ => rfl
          known := by simp
          ids := by simp [hp]
          apart := by simp [hp]
          pending := by simp [hp]
          entries := fun _ _ => rfl
          next := rfl
          fit := ⟨[], .nil, .nil⟩
          registrations := by simp [hp]
          hashes := List.nodup_nil
          absent := by simp
          staged := fun hash x => ⟨fun k => (by cases k), fun k => (by simp at k)⟩
          ordered := fun i prepared k => by cases k }

end WritePipeline

end Space
