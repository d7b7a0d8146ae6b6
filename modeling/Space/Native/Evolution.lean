import Space.Native.Invariant

/-!
# Native — Evolution

What no operation of the discipline undoes (`Evolves`): a segment nobody has reserved keeps its
payload and its form for as long as it is there, a segment without references stays without, and
the content store gains entries for reserved segments only.  What a token or a capsule says of the
state survives it (`Holds.evolve`, `Sound.evolve`).
-/

namespace Space
open Support

variable {P : Primitives} {D : Discipline} {w w' : World P} {T T' : Ghost}

namespace World

/-- From `w` and `T` to `w'` and `T'`, nothing that is relied on is undone. -/
structure Evolves (w : World P) (T : Ghost) (w' : World P) (T' : Ghost) : Prop where
  next : w.next ≤ w'.next
  free : ∀ x, x.val < w.next → x ∉ T.claims → x ∉ T'.claims
  payload : ∀ x, x.val < w.next → x ∉ T.claims → w'.payload x = w.payload x
  form : ∀ x, x.val < w.next → x ∉ T.claims → ∀ s', w'.seg x = some s' →
    ∃ s, w.seg x = some s ∧ s'.form = s.form
  refs : ∀ x, x.val < w.next → x ∉ T.claims → w.refs x = 0 → w'.refs x = 0
  content : ∀ h x, w'.content h = some x → w.content h = some x ∨ x ∈ T.claims

theorem Known.evolve (E : Evolves w T w' T') {x : SegmentId} {i : Info} (h : w.Known T x i) :
    w'.Known T' x i where
  lt := Nat.lt_of_lt_of_le h.lt E.next
  free := E.free x h.lt h.free
  payload := (E.payload x h.lt h.free).trans h.payload
  form := fun s' hs' => by
    obtain ⟨s, hs, hf⟩ := E.form x h.lt h.free s' hs'
    exact hf.trans (h.form s hs)

theorem Unused.evolve (E : Evolves w T w' T') {x : SegmentId} (h : w.Unused T x) :
    w'.Unused T' x where
  lt := Nat.lt_of_lt_of_le h.lt E.next
  free := E.free x h.lt h.free
  refs := E.refs x h.lt h.free h.refs

theorem contentHash_of_form {s s' : Segment} (h : s'.form = s.form) :
    s'.contentHash = s.contentHash :=
  show s'.form.contentHash = s.form.contentHash from congrArg Segment.contentHash h

theorem Sound.evolve (E : Evolves w T w' T') {id : CapsuleId} {c : Capsule}
    (hp : w'.ledger.produced id = w.ledger.produced id)
    (hc : w'.ledger.contents id = w.ledger.contents id) (h : w.Sound D T id c) :
    w'.Sound D T' id c := by
  obtain ⟨infos, hk, hs, hl⟩ := h
  exact ⟨infos, hk.imp fun _ _ k => k.evolve E, hp ▸ hs, hc.trans hl⟩

/-- What a token says of the segments the capsules list, still holds. -/
structure Steady (w w' : World P) (τ : Token) : Prop where
  unlisted : ∀ x, (x ∈ τ.claims ∨ τ = .idle x ∨ ∃ h, τ = .reg x h) → w.occ x = 0 → w'.occ x = 0
  listed : ∀ x, τ = .listed x → w.occ x ≤ w'.occ x

theorem Steady.same {τ : Token} (h : ∀ x, w'.occ x = w.occ x) : Steady w w' τ :=
  ⟨fun x _ h0 => (h x).trans h0, fun x _ => Nat.le_of_eq (h x).symm⟩

/-- **What a token says survives**, if the segments it has reserved are as they were, and what it
says of the capsules, of a missing hash and of the end of the log still holds. -/
theorem Holds.evolve (E : Evolves w T w' T') {τ : Token} (h : w.Holds D T τ)
    (hc : ∀ x ∈ τ.claims, w'.seg x = w.seg x ∧ w'.payload x = w.payload x)
    (ho : Steady w w' τ)
    (ha : ∀ hash, τ = .absent hash → w'.content hash = w.content hash)
    (ht : τ.isTxn = true →
      w'.store.nvram.nextOffset = w.store.nvram.nextOffset ∧ w'.file = w.file) :
    w'.Holds D T' τ := by
  have hash {x : SegmentId} {R : Option ContentHash → Prop} (hlt : x.val < w.next)
      (hfree : x ∉ T.claims) (hs : ∀ s, w.seg x = some s → R s.contentHash) :
      ∀ s', w'.seg x = some s' → R s'.contentHash := fun s' hs' => by
    obtain ⟨s, e, hf⟩ := E.form x hlt hfree s' hs'
    exact contentHash_of_form hf ▸ hs s e
  have noEntry {x : SegmentId} (hfree : x ∉ T.claims) (hn : ∀ h, w.content h ≠ some x) :
      ∀ h, w'.content h ≠ some x := fun h e =>
    (E.content h x e).elim (hn h) hfree
  cases τ with
  | ref x => trivial
  | fresh x => exact (hc x (Multiset.mem_singleton_self x)).1.trans h
  | own s payload =>
      obtain ⟨e₁, e₂⟩ := hc s.id (Multiset.mem_singleton_self _)
      exact ⟨e₁.trans h.1, e₂.trans h.2.1, h.2.2.1,
        ho.unlisted s.id (.inl (Multiset.mem_singleton_self _)) h.2.2.2⟩
  | knows x i => exact Known.evolve E h
  | dead x hsh => exact ⟨h.1.evolve E, hash (R := (· = hsh)) h.1.lt h.1.free h.2⟩
  | bare x => exact ⟨h.1.evolve E, noEntry h.1.free h.2⟩
  | reg x hsh =>
      obtain ⟨hs, hu, hh⟩ := h
      refine ⟨hs, ⟨Nat.lt_of_lt_of_le hu.lt E.next, E.free x hu.lt hu.free, ?_⟩, ?_⟩
      · exact ho.unlisted x (.inr (.inr ⟨hsh, rfl⟩)) hu.occ
      · exact hash (R := (· = some hsh)) hu.lt hu.free hh
  | idle x =>
      obtain ⟨hs, hu, hn⟩ := h
      refine ⟨hs, ⟨Nat.lt_of_lt_of_le hu.lt E.next, E.free x hu.lt hu.free, ?_⟩, ?_⟩
      · exact ho.unlisted x (.inr (.inl rfl)) hu.occ
      · exact noEntry hu.free hn
  | listed x => exact ⟨h.1, Nat.le_trans h.2 (ho.listed x rfl)⟩
  | absent hsh => exact ⟨h.1, (ha hsh rfl).trans h.2⟩
  | txn base current staged =>
      obtain ⟨hs, h₁, h₂, h₃, h₄⟩ := h
      obtain ⟨e₁, e₂⟩ := ht rfl
      refine ⟨hs, e₁.trans h₁, (congrArg List.length e₂).trans h₂, h₃, fun s hm => ?_⟩
      exact (hc s.id (List.mem_map_of_mem hm)).1.trans (h₄ s hm)

/-- The state unchanged, with no more claims than before. -/
theorem Evolves.same (hc : ∀ x ∈ T'.claims, x ∈ T.claims) : Evolves w T w T' where
  next := Nat.le_refl _
  free := fun x _ h h' => h (hc x h')
  payload := fun _ _ _ => rfl
  form := fun _ _ _ s h => ⟨s, h, rfl⟩
  refs := fun _ _ _ h => h
  content := fun _ _ h => .inl h

theorem Holds.same (hc : ∀ x ∈ T'.claims, x ∈ T.claims) {τ : Token} (h : w.Holds D T τ) :
    w.Holds D T' τ :=
  h.evolve (.same hc) (fun _ _ => ⟨rfl, rfl⟩) (.same fun _ => rfl) (fun _ _ => rfl)
    fun _ => ⟨rfl, rfl⟩

end World

end Space
