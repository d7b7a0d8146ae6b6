import Space.Native.Discipline
import Space.Native.Hybrid

/-!
# Native — WriteSpec

The synchronous write against the discipline, of either profile.  Between two chunks a thread owns
what it owned when it began and one reference for each entry of its segment list (`Stage`); each
chunk adds one entry, whether it was found or stored (`wp_writeChunkHybrid`), and creating the
capsule gives the references away again (`wp_writeCapsuleHybrid`).  The classical write is the one
without a manager (`wp_writeCapsule`).

`Discipline.Accepts` is what a discipline has to say of a write: that what it stores is
legitimate, that a hit fits its chunk, and that fitting segments make a sound capsule.
-/

namespace Space
open Support Prog

variable {P : Primitives} {D : Discipline} {policy : Policy} {data : Bytes} {g g₀ : Ghost}

/-- The key a write under the policy gets. -/
def KeyFor (D : Discipline) (policy : Policy) (key : Option (UInt32 × XtsKeyPair)) : Prop :=
  if policy.encryption.isEnabled = true then
    match D.keys with
    | none => key = none
    | some K => ∃ v, key = some (v, K v)
  else key = none

/-- The stored form of a chunk: its view, how it was compressed, its payload, its metadata. -/
structure Prepared (P : Primitives) (D : Discipline) (policy : Policy) (chunk view : Bytes)
    (r : CompressionResult) (payload : Bytes) (encMeta : Option EncryptionMetadata) : Prop where
  compressed : compressSegment P chunk policy.compression = .ok (view, r)
  sealed : ∃ key, KeyFor D policy key ∧
    sealView P key view (hashContent P view) = .ok (payload, encMeta)

/-- The hash a stored view is registered under, if the policy deduplicates. -/
def Policy.registeredHash (P : Primitives) (policy : Policy) (view : Bytes) : Option ContentHash :=
  if policy.dedupe = true then some (hashContent P view) else none

/-- What a discipline says of a write of `data`. -/
structure Discipline.Accepts (P : Primitives) (D : Discipline) (policy : Policy) (data : Bytes)
    (fits : Bytes → Info → Prop) : Prop where
  fresh : ∀ chunk ∈ chunks SEGMENT_SIZE data, ∀ view r payload encMeta,
    Prepared P D policy chunk view r payload encMeta → ∀ x off,
      let s := (Segment.appended x off (asU32 payload.length)).describe r
        (policy.registeredHash P view) encMeta
      D.legit ⟨s.form, payload⟩ ∧ fits chunk ⟨s.form, payload⟩
  hit : ∀ chunk ∈ chunks SEGMENT_SIZE data, ∀ view r payload encMeta,
    Prepared P D policy chunk view r payload encMeta → policy.dedupe = true →
      ∀ i, D.legit i → D.hit (hashContent P view) i →
        i.form.contentHash = some (hashContent P view) → fits chunk i
  sound : ∀ infos, List.Forall₂ fits (chunks SEGMENT_SIZE data) infos → D.sound data policy infos

/-- The same of a chunk at its position, where its key may be wrapped. -/
structure PreparedHybrid (P : Primitives) (D : Discipline) (mlkem : Option MlkemKeyManager)
    (coins : Nat → Bytes) (id : CapsuleId) (policy : Policy) (chunk : Bytes × Nat) (view : Bytes)
    (r : CompressionResult) (payload : Bytes) (encMeta : Option EncryptionMetadata)
    (material : Option HybridKeyMaterial) : Prop where
  compressed : compressSegment P chunk.1 policy.compression = .ok (view, r)
  sealed : ∃ key, KeyFor D policy key ∧ sealHybrid P mlkem policy.cryptoProfile id chunk.2
    (coins chunk.2) key view (hashContent P view) = .ok (payload, encMeta, material)

/-- What a discipline says of a hybrid write, which leaves `note` in the ledger. -/
structure Discipline.AcceptsHybrid (P : Primitives) (D : Discipline)
    (mlkem : Option MlkemKeyManager) (coins : Nat → Bytes) (id : CapsuleId) (policy : Policy)
    (data note : Bytes) (fits : Bytes × Nat → Info → Prop) : Prop where
  fresh : ∀ chunk ∈ (chunks SEGMENT_SIZE data).zipIdx, ∀ view r payload encMeta material,
    PreparedHybrid P D mlkem coins id policy chunk view r payload encMeta material → ∀ x off,
      let s := ((Segment.appended x off (asU32 payload.length)).describe r
        (policy.registeredHash P view) encMeta).wrap material
      D.legit ⟨s.form, payload⟩ ∧ fits chunk ⟨s.form, payload⟩
  hit : ∀ chunk ∈ (chunks SEGMENT_SIZE data).zipIdx, ∀ view r payload encMeta material,
    PreparedHybrid P D mlkem coins id policy chunk view r payload encMeta material →
      policy.dedupe = true → ∀ i, D.legit i → D.hit (hashContent P view) i →
        i.form.contentHash = some (hashContent P view) → fits chunk i
  sound : ∀ infos, List.Forall₂ fits (chunks SEGMENT_SIZE data).zipIdx infos →
    D.sound note policy infos

/-- A write without a manager. -/
theorem Discipline.Accepts.hybrid {fits : Bytes → Info → Prop}
    (A : D.Accepts P policy data fits) (coins : Nat → Bytes) (id : CapsuleId) :
    D.AcceptsHybrid P none coins id policy data data fun chunk i => fits chunk.1 i := by
  have hprep : ∀ {chunk view r payload encMeta material},
      PreparedHybrid P D none coins id policy chunk view r payload encMeta material →
      material = none ∧ Prepared P D policy chunk.1 view r payload encMeta := by
    rintro chunk view r payload encMeta material ⟨hc, key, hkey, hs⟩
    rw [WritePipeline.sealHybrid_unwrapped (.inl rfl)] at hs
    cases hseal : sealView P key view (hashContent P view) with
    | error e =>
        rw [hseal] at hs
        cases hs
    | ok pm =>
        rw [hseal] at hs
        cases hs
        exact ⟨rfl, hc, key, hkey, hseal⟩
  refine ⟨fun chunk hc view r payload encMeta material hp x off => ?_,
    fun chunk hc view r payload encMeta material hp hd i hl hh he => ?_, fun infos h => ?_⟩
  · obtain ⟨rfl, hp'⟩ := hprep hp
    exact A.fresh chunk.1 (List.fst_mem_of_mem_zipIdx hc) view r payload encMeta hp' x off
  · obtain ⟨-, hp'⟩ := hprep hp
    exact A.hit chunk.1 (List.fst_mem_of_mem_zipIdx hc) view r payload encMeta hp' hd i hl hh he
  · refine A.sound infos ?_
    have hmap := List.forall₂_map_left_iff.mpr h
    rwa [List.zipIdx_map_fst] at hmap

/-! ### Between two chunks -/

/-- What a thread owns after the segments `xs`, if it began with `g₀`. -/
structure Stage (g₀ : Ghost) (xs : List SegmentId) (infos : List Info) (g : Ghost) : Prop where
  refs : ∀ x, g.count (.ref x) = g₀.count (.ref x) + xs.count x
  knows : List.Forall₂ (fun x i => .knows x i ∈ g) xs infos
  quiet : ∀ τ ∈ g, τ.Quiet

/-- A thread between two commands. -/
def Ghost.Quiet (g : Ghost) : Prop := ∀ τ ∈ g, τ.Quiet

theorem Ghost.Quiet.cons {τ : Token} (h : Ghost.Quiet g) (hτ : τ.Quiet) :
    Ghost.Quiet (τ ::ₘ g) := fun τ' k =>
  (Multiset.mem_cons.mp k).elim (fun e => e ▸ hτ) (h τ')

theorem Ghost.Quiet.txns (h : Ghost.Quiet g) : g.txns = 0 :=
  Multiset.countP_eq_zero.mpr fun τ hτ => by
    rcases h τ hτ with k | ⟨x, rfl⟩
    · cases τ <;> simp_all [Token.Harmless]
    · simp

theorem Ghost.Quiet.not_dying (h : Ghost.Quiet g) {τ : Token} (hτ : τ ∈ g) (y : SegmentId)
    (hash : Option ContentHash) : τ ≠ .dead y hash ∧ τ ≠ .bare y := by
  rcases h τ hτ with k | ⟨x, rfl⟩
  · cases τ <;> simp_all [Token.Harmless]
  · simp

theorem Ghost.Quiet.not_idle (h : Ghost.Quiet g) (y : SegmentId) : .idle y ∉ g := fun k => by
  rcases h _ k with k | ⟨x, e⟩
  · exact k
  · cases e

namespace Stage
variable {xs : List SegmentId} {infos : List Info}

theorem start (h : Ghost.Quiet g₀) : Stage g₀ [] [] g₀ := ⟨fun _ => rfl, .nil, h⟩

/-- One more thing known. -/
theorem learn {τ : Token} (h : Stage g₀ xs infos g) (hτ : τ.Harmless) :
    Stage g₀ xs infos (τ ::ₘ g) where
  refs := fun x => by
    rw [Multiset.count_cons_of_ne, h.refs]
    rintro rfl
    exact hτ
  knows := h.knows.imp fun _ _ k => Multiset.mem_cons_of_mem k
  quiet := Ghost.Quiet.cons h.quiet (.inl hτ)

/-- One more reference, to a segment that is known. -/
theorem push {x : SegmentId} {i : Info} (h : Stage g₀ xs infos g) (hi : .knows x i ∈ g) :
    Stage g₀ (xs ++ [x]) (infos ++ [i]) (.ref x ::ₘ g) where
  refs := fun y => by
    rw [Multiset.count_cons, h.refs, List.count_append, List.count_singleton]
    simp only [Token.ref.injEq, beq_iff_eq, eq_comm (a := y)]
    omega
  knows := forall₂_snoc (h.knows.imp fun _ _ k => Multiset.mem_cons_of_mem k)
    (Multiset.mem_cons_of_mem hi)
  quiet := Ghost.Quiet.cons h.quiet (.inr ⟨x, rfl⟩)

/-- Harmless tokens forgotten that nothing is known by. -/
theorem forget {p : Token → Prop} [DecidablePred p] (h : Stage g₀ xs infos g)
    (hr : ∀ x, p (.ref x)) (hk : ∀ x i, p (.knows x i)) : Stage g₀ xs infos (g.filter p) where
  refs := fun x => by rw [Multiset.count_filter_of_pos (hr x), h.refs]
  knows := h.knows.imp fun x i k => Multiset.mem_filter.mpr ⟨k, hk x i⟩
  quiet := fun τ k => h.quiet τ (Multiset.mem_of_mem_filter k)

end Stage

/-! ### The parts of a chunk -/

/-- One operation. -/
theorem wp_op (o : StoreOp) {Q : Except Error o.Res → Ghost → Prop} (hm : Token.may D data o g)
    (h : ∀ r g', Token.moves D o g r g' → Q r g') :
    (perform (S := StoreSig) o).wp (Token.moves D) (Token.may D data) Q g :=
  wp_perform.mpr ⟨hm, h⟩

namespace WritePipeline

theorem wp_encryptionKey {Q : Except Error (Option (UInt32 × XtsKeyPair)) → Ghost → Prop}
    (h : ∀ key, KeyFor D policy key → Q (.ok key) g) :
    (encryptionKey policy).wp (Token.moves D) (Token.may D data) Q g := by
  unfold encryptionKey
  split
  · next e =>
      refine wp_op .currentKey trivial fun r g' hm => ?_
      obtain ⟨rfl, o, rfl, ho⟩ := hm
      refine h o ?_
      unfold KeyFor
      rw [if_pos e]
      exact ho
  · next e =>
      refine h none ?_
      unfold KeyFor
      rw [if_neg e]

/-- Storing a payload: a segment nobody else knows of, or, if it is not to be registered, one more
reference. -/
theorem wp_storeHybrid {payload : Bytes} {r : CompressionResult} {hash : Option ContentHash}
    {encMeta : Option EncryptionMetadata} {material : Option HybridKeyMaterial}
    {Q : Except Error SegmentId → Ghost → Prop} (ht : g.txns = 0)
    (hl : ∀ x off, D.legit ⟨(((Segment.appended x off (asU32 payload.length)).describe r hash
      encMeta).wrap material).form, payload⟩)
    (h : ∀ x off s, s = ((Segment.appended x off (asU32 payload.length)).describe r hash
        encMeta).wrap material →
      Q (.ok x) (if hash = none then .knows x ⟨s.form, payload⟩ ::ₘ .ref x ::ₘ g
        else .own s payload ::ₘ g)) :
    (storeHybrid payload r hash encMeta material).wp (Token.moves D) (Token.may D data) Q g := by
  unfold storeHybrid
  refine wp_bind.mpr (wp_op .allocSegment trivial fun _ _ hm => ?_)
  obtain ⟨(x : SegmentId), rfl, -, -, rfl⟩ := hm
  refine wp_bind.mpr (wp_mapError.mpr (wp_op (.append x payload) ?_ fun _ _ hm => ?_))
  · exact ⟨Multiset.mem_cons_self _ _, by simp [ht]⟩
  obtain ⟨off, rfl, rfl⟩ := hm
  rw [Multiset.erase_cons_head]
  set s₀ := Segment.appended x off (asU32 payload.length) with hs₀
  have hdesc : ∀ s, s = (s₀.describe r hash encMeta).wrap material → s.id = s₀.id ∧
      s.offset = s₀.offset ∧ s.len = s₀.len ∧ s.refCount = s₀.refCount ∧
      s.deduplicated = s₀.deduplicated ∧ s.contentHash = hash := by
    rintro s rfl
    cases encMeta <;> cases material <;> exact ⟨rfl, rfl, rfl, rfl, rfl, rfl⟩
  obtain ⟨h₁, h₂, h₃, h₄, h₅, h₆⟩ := hdesc _ rfl
  refine wp_bind.mpr (wp_mapError.mpr (wp_op (.updateSegmentMetadata x _) ?_ fun _ _ hm => ?_))
  · exact ⟨s₀, payload, Multiset.mem_cons_self _ _, rfl, h₁, h₂, h₃, h₄, h₅, hl x off⟩
  obtain ⟨rfl, hg⟩ := hm
  rw [hg s₀ payload (Multiset.mem_cons_self _ _) rfl, Multiset.erase_cons_head, h₆, h₄]
  exact h x off _ rfl

variable {mlkem : Option MlkemKeyManager} {coins : Nat → Bytes} {id : CapsuleId} {note : Bytes}
  {fits : Bytes × Nat → Info → Prop} {st : WriteState} {infos : List Info} {chunk : Bytes × Nat}

/-- **One chunk** adds one entry to the segment list, whether it was found or stored. -/
theorem wp_writeChunkHybrid {Q : Except Error WriteState → Ghost → Prop}
    (A : D.AcceptsHybrid P mlkem coins id policy data note fits)
    (hc : chunk ∈ (chunks SEGMENT_SIZE data).zipIdx)
    (h : Stage g₀ st.segmentIds infos g)
    (hok : ∀ st' x i g', st'.segmentIds = st.segmentIds ++ [x] → fits chunk i →
      Stage g₀ st'.segmentIds (infos ++ [i]) g' → Q (.ok st') g')
    (herr : ∀ e g', Ghost.Quiet g' → Q (.error e) g') :
    (writeChunkHybrid P mlkem coins id policy st chunk).wp (Token.moves D) (Token.may D note)
      Q g := by
  classical
  unfold writeChunkHybrid
  refine wp_bind.mpr (wp_lift.mpr ?_)
  cases hcomp : compressSegment P chunk.1 policy.compression with
  | error e => exact herr _ _ h.quiet
  | ok vr =>
  obtain ⟨view, r⟩ := vr
  refine wp_bind.mpr (wp_encryptionKey fun key hkey => ?_)
  refine wp_bind.mpr (wp_lift.mpr ?_)
  cases hseal : sealHybrid P mlkem policy.cryptoProfile id chunk.2 (coins chunk.2) key view
    (hashContent P view) with
  | error e => exact herr _ _ h.quiet
  | ok pm =>
  obtain ⟨payload, encMeta, material⟩ := pm
  have hprep : PreparedHybrid P D mlkem coins id policy chunk view r payload encMeta material :=
    ⟨hcomp, key, hkey, hseal⟩
  have hfresh := A.fresh chunk hc view r payload encMeta material hprep
  show Prog.wp _ _ Q (if policy.dedupe = true then _ else _) g
  by_cases hd : policy.dedupe = true
  · rw [if_pos hd]
    unfold Policy.registeredHash at hfresh
    rw [if_pos hd] at hfresh
    refine wp_bind.mpr (wp_op (.lookupContent (hashContent P view)) trivial fun _ g' hm => ?_)
    rcases hm with ⟨rfl, rfl⟩ | ⟨x, i, rfl, hh, hlegit, hhit, -, rfl⟩
    · -- a new segment, registered
      have h' : Stage g₀ st.segmentIds infos
          (if D.solo then .absent (hashContent P view) ::ₘ g else g) := by
        split
        · exact h.learn trivial
        · exact h
      refine wp_bind.mpr (wp_storeHybrid (Ghost.Quiet.txns h'.quiet) (fun x off => (hfresh x off).1)
        fun x off s hs => ?_)
      rw [if_neg (by simp)]
      obtain ⟨hlegit, hfits⟩ := hfresh x off
      rw [← hs] at hlegit hfits
      have hid : s.id = x ∧ s.contentHash = some (hashContent P view) ∧ s.refCount = 1 := by
        rw [hs]; cases encMeta <;> cases material <;> exact ⟨rfl, rfl, rfl⟩
      refine wp_bind.mpr (wp_mapError.mpr (wp_op (.registerContent (hashContent P view) x) ?_
        fun _ g' hm => ?_))
      · exact ⟨s, payload, Multiset.mem_cons_self _ _, hid.1, hid.2.1, hlegit, fun hso => by
          rw [if_pos hso]; exact Multiset.mem_cons_of_mem (Multiset.mem_cons_self _ _)⟩
      obtain ⟨rfl, hg⟩ := hm
      rw [hg s payload (Multiset.mem_cons_self _ _) hid.1, Multiset.erase_cons_head, hid.2.2]
      refine hok _ x _ _ rfl hfits ?_
      have h₁ := h'.forget (p := (· ≠ .absent (hashContent P view))) (by simp) (by simp)
      have h₂ : Stage g₀ st.segmentIds infos ((if D.solo then {.reg x (hashContent P view)} else 0)
          + (if D.solo then .absent (hashContent P view) ::ₘ g else g).filter
            (· ≠ .absent (hashContent P view))) := by
        by_cases hso : D.solo
        · rw [if_pos hso, Multiset.singleton_add]; exact h₁.learn trivial
        · rw [if_neg hso, zero_add]; exact h₁
      have h₃ := (h₂.learn (τ := .knows x ⟨s.form, payload⟩) trivial).push
        (Multiset.mem_cons_self _ _)
      rw [Multiset.cons_swap] at h₃
      rw [Multiset.replicate_one, Multiset.singleton_add]
      exact h₃
    · -- a hit: one more reference
      refine wp_bind.mpr (wp_mapError.mpr (wp_op (.incrementRefcount x) ?_ fun _ g' hm => ?_))
      · refine ⟨⟨i, Multiset.mem_cons_self _ _⟩, fun _ τ hτ y hash => ?_⟩
        exact Ghost.Quiet.not_dying (h.learn (τ := .knows x i) trivial).quiet hτ y hash
      have h' := h.learn (τ := .knows x i) trivial
      have hfit := A.hit chunk hc view r payload encMeta material hprep hd i hlegit hhit hh
      rcases hm with ⟨s, rfl, ⟨-, rfl⟩ | rfl⟩ | ⟨e, rfl, rfl⟩
      · exact hok _ x i _ rfl hfit (h'.push (Multiset.mem_cons_self _ _))
      · refine hok _ x i _ rfl hfit ?_
        have h'' := h'.learn (τ := .listed x) trivial
        exact h''.push (Multiset.mem_cons_of_mem (Multiset.mem_cons_self _ _))
      · exact herr _ _ h'.quiet
  · -- a new segment that is not to be found again
    rw [if_neg hd]
    unfold Policy.registeredHash at hfresh
    rw [if_neg hd] at hfresh
    refine wp_bind.mpr (wp_storeHybrid (Ghost.Quiet.txns h.quiet) (fun x off => (hfresh x off).1)
      fun x off s hs => ?_)
    rw [if_pos rfl, Multiset.cons_swap, hs]
    refine hok _ x _ _ rfl (hfresh x off).2 ?_
    exact (h.learn (τ := .knows x _) trivial).push (Multiset.mem_cons_self _ _)

/-- **A write** leaves the references as they were: those it took are its capsule's. -/
theorem wp_writeCapsuleHybrid {Q : Except Error CapsuleId → Ghost → Prop}
    (A : D.AcceptsHybrid P mlkem coins id policy data note fits) (h : Ghost.Quiet g₀)
    (hok : ∀ g', Ghost.Quiet g' → (∀ x, g'.count (.ref x) = g₀.count (.ref x)) → Q (.ok id) g')
    (herr : ∀ e g', Ghost.Quiet g' → Q (.error e) g') :
    (writeCapsuleHybrid P mlkem coins id data policy).wp (Token.moves D) (Token.may D note)
      Q g₀ := by
  classical
  unfold writeCapsuleHybrid
  refine wp_bind.mpr (wp_foldlM (fun rest (st : WriteState) g => ∃ done infos,
    (chunks SEGMENT_SIZE data).zipIdx = done ++ rest ∧ List.Forall₂ fits done infos ∧
      Stage g₀ st.segmentIds infos g) ?_ ?_ _ _ _ ?_)
  · rintro chunk rest st g ⟨done, infos, hch, hfits, hst⟩
    refine wp_writeChunkHybrid A (by rw [hch]; simp) hst (fun st' x i g' _ hfit hst' => ?_)
      fun e g' hq => herr e g' hq
    exact ⟨done ++ [chunk], infos ++ [i], by rw [hch]; simp, forall₂_snoc hfits hfit, hst'⟩
  · rintro st g ⟨done, infos, hch, hfits, hst⟩
    rw [List.append_nil] at hch
    subst hch
    have hrest : ∀ {g}, Stage g₀ st.segmentIds infos g →
        Prog.wp (Token.moves D) (Token.may D note) Q (do
          (Native.createCapsuleWithSegments id data.length st.segmentIds policy).mapError
            (mapRegistryError "create_capsule_with_segments")
          return id) g := fun {g} hst => by
      refine wp_bind.mpr (wp_mapError.mpr (wp_op
        (.createCapsuleWithSegments id data.length st.segmentIds policy) ?_ fun _ g' hm => ?_))
      · refine ⟨fun x => ?_, Ghost.Quiet.not_idle hst.quiet, infos, hst.knows, A.sound infos hfits⟩
        rw [hst.refs]; omega
      · rcases hm with ⟨rfl, rfl⟩ | ⟨e, rfl, rfl⟩
        · refine hok _ (fun τ k => ?_) fun x => ?_
          · exact hst.quiet τ (Multiset.mem_of_mem_filter
              (Multiset.mem_of_le (Multiset.sub_le_self _ _) k))
          · rw [Multiset.count_sub, Multiset.count_filter_of_pos (by simp), hst.refs,
              Multiset.coe_count, List.count_map_of_injective _ _ fun a b e => by cases e; rfl]
            omega
        · exact herr _ _ hst.quiet
    show Prog.wp _ _ Q (if 0 < st.dedupStats.bytesSaved then _ else _) g
    split
    · refine wp_bind.mpr (wp_mapError.mpr (wp_op (.addDedupedBytes id _) trivial fun _ g' hm => ?_))
      obtain ⟨rfl, rfl⟩ := hm
      exact hrest hst
    · exact hrest hst
  · exact ⟨[], [], by simp, .nil, .start h⟩

/-- The classical write. -/
theorem wp_writeCapsule {fits : Bytes → Info → Prop} {Q : Except Error CapsuleId → Ghost → Prop}
    (A : D.Accepts P policy data fits) (h : Ghost.Quiet g₀)
    (hok : ∀ g', Ghost.Quiet g' → (∀ x, g'.count (.ref x) = g₀.count (.ref x)) → Q (.ok id) g')
    (herr : ∀ e g', Ghost.Quiet g' → Q (.error e) g') :
    (writeCapsuleWithPolicy P id data policy).wp (Token.moves D) (Token.may D data) Q g₀ := by
  have heq := @writeCapsuleHybrid_unwrapped P none (fun _ => []) id data policy not_wrapsKeys_none
  exact heq ▸ wp_writeCapsuleHybrid (A.hybrid (fun _ => []) id) h hok herr

end WritePipeline

end Space
