import Space.Views.BlockLinear
import Space.Views.S3Server
import Mathlib.Algebra.Order.PUnit
import Mathlib.Algebra.Order.Group.Multiset

/-!
# Views — S3Linear

The server is linearizable, twice over.  What is stored is one object (`storeObject`): each request
takes effect at one moment between its arrival and its response, or is turned away, and then it has
none.  Who is let in is another one (`gateObject`): each request is judged by the allow-list of one
such moment, and the list, once there is one, is never empty again.

* `S3Server.Inv`: the key map spells the objects, and their capsules hold their data.
* `s3Server_linearizable`: both, for every interleaving of requests and refreshes.

The content type of a `GET` is looked up after its data, when the object may be gone: it is that of
the key, or the one of an object that is not found (`getTypes`), and the object leaves open which.
-/

namespace Space
open Support Prog

/-! ### What is stored -/

/-- The objects, by the texts of their keys. -/
abbrev StoredObjects := Table Text S3Object

/-- The metadata of the object at a text. -/
def S3Object.stored (key : Text) (object : S3Object) : KeyMapping where
  key := key
  capsuleId := object.capsuleId
  size := object.data.length
  createdAt := object.createdAt
  contentType := detectContentType key

/-- No suffix without a slash reaches beyond one. -/
theorem isSuffixOf_fullKey {suffix : Text} (h : '/' ∉ suffix) (bucket key : Text) :
    suffix.isSuffixOf (fullKey bucket key) = suffix.isSuffixOf key := by
  rw [Bool.eq_iff_iff, List.isSuffixOf_iff_suffix, List.isSuffixOf_iff_suffix]
  have hwhole : '/' :: key <:+ fullKey bucket key := List.suffix_append bucket ('/' :: key)
  refine ⟨fun hs => ?_, fun hs => (hs.trans (List.suffix_cons '/' key)).trans hwhole⟩
  rcases List.suffix_or_suffix_of_suffix hs hwhole with k | k
  · rcases List.suffix_cons_iff.mp k with rfl | k
    · exact absurd List.mem_cons_self h
    · exact k
  · exact absurd (k.subset List.mem_cons_self) h

/-- The content type is one of the text. -/
theorem detectContentType_fullKey (bucket key : Text) :
    detectContentType (fullKey bucket key) = detectContentType key := by
  unfold detectContentType
  simp only [isSuffixOf_fullKey (show '/' ∉ ".txt".toList by decide),
    isSuffixOf_fullKey (show '/' ∉ ".json".toList by decide),
    isSuffixOf_fullKey (show '/' ∉ ".html".toList by decide),
    isSuffixOf_fullKey (show '/' ∉ ".jpg".toList by decide),
    isSuffixOf_fullKey (show '/' ∉ ".jpeg".toList by decide),
    isSuffixOf_fullKey (show '/' ∉ ".png".toList by decide)]

/-- The content types of a `GET`: that of the key, and that of an object that is not found. -/
def getTypes (key : Text) : List Text :=
  [detectContentType key, "application/octet-stream".toList]

/-- What a `GET` is answered. -/
def getAnswer (key contentType : Text) : Option S3Object → HttpResponse
  | some object => ⟨200, [.contentType contentType], .bytes object.data⟩
  | none => .failed 404 (keyNotFound key)

/-- What a `HEAD` is answered. -/
def headAnswer (key : Text) : Option S3Object → HttpResponse
  | some object => ⟨200, [.contentLength object.data.length, .contentType (detectContentType key),
      .etag object.capsuleId, .lastModified object.createdAt], .empty⟩
  | none => .failed 404 (keyNotFound key)

/-- What a `DELETE` is answered. -/
def deleteAnswer (key : Text) : Option S3Object → HttpResponse
  | some _ => ⟨204, [], .empty⟩
  | none => .failed 404 (keyNotFound key)

/-- A request, served from the objects in one step. -/
def HttpRequest.Serves : HttpRequest → StoredObjects → HttpResponse → StoredObjects → Prop
  | putObject bucket key data id now, a, r, a' =>
    (∃ createdAt, now = some createdAt ∧ r = ⟨200, [.etag id], .empty⟩ ∧
      a' = a.insert (fullKey bucket key) ⟨data, id, createdAt⟩) ∨
    (∃ e, r = .failed 500 e) ∧ a' = a
  | getObject bucket key, a, r, a' =>
    (∃ contentType ∈ getTypes (fullKey bucket key),
      r = getAnswer (fullKey bucket key) contentType (a.lookup (fullKey bucket key))) ∧ a' = a
  | headObject bucket key, a, r, a' =>
    r = headAnswer (fullKey bucket key) (a.lookup (fullKey bucket key)) ∧ a' = a
  | listObjects bucket _, a, r, a' =>
    a' = a ∧ ∃ contents, r = ⟨200, [], .listing ⟨bucket, contents⟩⟩ ∧ contents.Perm
      ((a.entries.filter fun e => (fullKey bucket []).isPrefixOf e.1).map
        fun e => (e.2.stored e.1).metadata)
  | deleteObject bucket key, a, r, a' =>
    r = deleteAnswer (fullKey bucket key) (a.lookup (fullKey bucket key)) ∧
      a' = a.erase (fullKey bucket key)
  | healthCheck, a, r, a' => r = ⟨200, [], .health⟩ ∧ a' = a

/-- The object that clients share: a request is turned away, or served in one step. -/
def storeObject : Atomic S3Task StoredObjects S3Outcome
  | .request _ request, a, r, a' =>
    (∃ rejection, r = .response (.rejected rejection)) ∧ a' = a ∨
      ∃ response, r = .response response ∧ request.Serves a response a'
  | .refresh _ _, a, r, a' => r = .refreshed ∧ a' = a

/-- Outcomes that differ in what is left open: the content type of a `GET`. -/
def S3Task.Like (c : S3Task) (r r' : S3Outcome) : Prop :=
  r = r' ∨ ∃ header bucket key found, c = .request header (.getObject bucket key) ∧
    ∃ t ∈ getTypes (fullKey bucket key), ∃ t' ∈ getTypes (fullKey bucket key),
      r = .response (getAnswer (fullKey bucket key) t found) ∧
      r' = .response (getAnswer (fullKey bucket key) t' found)

theorem S3Task.Like.refl (c : S3Task) (r : S3Outcome) : c.Like r r := .inl rfl

/-- The object leaves it open. -/
theorem storeObject_leaves {c : S3Task} {a a' : StoredObjects} {r r' : S3Outcome}
    (h : storeObject c a r a') (hlike : c.Like r r') : storeObject c a r' a' := by
  rcases hlike with rfl | ⟨header, bucket, key, found, rfl, t, ht, t', ht', rfl, rfl⟩
  · exact h
  · cases found with
    | none => exact h
    | some object =>
        rcases h with ⟨⟨rejection, e⟩, -⟩ | ⟨response, e, ⟨t₀, ht₀, rfl⟩, rfl⟩
        · exact nomatch (HttpResponse.mk.inj (S3Outcome.response.inj e)).2.2
        · refine .inr ⟨_, rfl, ⟨t', ht', ?_⟩, rfl⟩
          have e := S3Outcome.response.inj e
          cases hfound : a'.lookup (fullKey bucket key) with
          | none =>
              rw [hfound] at e
              exact nomatch (HttpResponse.mk.inj e).2.2
          | some object' =>
              rw [hfound] at e
              have hdata := HttpBody.bytes.inj (HttpResponse.mk.inj e).2.2
              rw [getAnswer, getAnswer, hdata]

/-! ### What the threads know -/

/-- Capsules, and what they hold: a server deletes none. -/
abbrev S3Ghost := Multiset (CapsuleId × Bytes)

namespace S3Server

/-- What links the server, the objects and all that the threads know. -/
structure Inv (s : S3Server) (a : StoredObjects) (g : S3Ghost) : Prop where
  encoded : Encoded id S3Object.stored a s.keyMap
  held : ∀ key object, a.lookup key = some object →
    s.store.capsules.lookup object.capsuleId = some object.data
  known : ∀ p ∈ g, s.store.capsules.lookup p.1 = some p.2

variable {s s' : S3Server} {a : StoredObjects} {g f : S3Ghost} {c : S3Task} {φ : Phase S3Outcome}

namespace Inv

theorem lookup (h : s.Inv a g) (key : Text) :
    s.keyMap.lookup key = (a.lookup key).map (S3Object.stored key) :=
  h.encoded.lookup (k := key) fun _ _ e => e

theorem drop (h : s.Inv a (g + f)) : s.Inv a f :=
  ⟨h.encoded, h.held, fun p hp => h.known p (Multiset.mem_add.mpr (.inr hp))⟩

/-- A thread looks an object up. -/
theorem learns (h : s.Inv a g) {key : Text} {object : S3Object} (hl : a.lookup key = some object) :
    s.Inv a ((object.capsuleId, object.data) ::ₘ g) := by
  refine ⟨h.encoded, h.held, fun p hp => ?_⟩
  rcases Multiset.mem_cons.mp hp with rfl | hp
  · exact h.held key object hl
  · exact h.known p hp

/-- A thread writes a capsule. -/
theorem writes (h : s.Inv a g) {id : CapsuleId} {data : Bytes} (hid : id ∉ s.store.used) :
    Inv { s with store := s.store.write id data } a ((id, data) ::ₘ g) := by
  -- what is live has another identifier
  have hkept : ∀ k d, s.store.capsules.lookup k = some d →
      (s.store.write id data).capsules.lookup k = some d := by
    intro k d hk
    have hne : k ≠ id := fun e => hid (e ▸ s.store.capsules_used _ _ hk)
    exact (AList.lookup_insert_ne hne).trans hk
  refine ⟨h.encoded, fun key object hl => hkept _ _ (h.held key object hl), fun p hp => ?_⟩
  rcases Multiset.mem_cons.mp hp with rfl | hp
  · exact AList.lookup_insert _
  · exact hkept _ _ (h.known p hp)

/-- An object is put under a text. -/
theorem inserts (h : s.Inv a g) {key : Text} {object : S3Object}
    (hknown : (object.capsuleId, object.data) ∈ g) :
    Inv { s with keyMap := s.keyMap.insert key (object.stored key) } (a.insert key object) g := by
  refine ⟨Encoded.insert (k := key) h.encoded fun _ _ e => e, fun k o hl => ?_, h.known⟩
  rcases Table.lookup_insert_eq_some.mp hl with ⟨rfl, rfl⟩ | ⟨-, hl⟩
  · exact h.known _ hknown
  · exact h.held k o hl

/-- An object is taken away; its capsule stays. -/
theorem erases (h : s.Inv a g) (key : Text) :
    Inv { s with keyMap := s.keyMap.erase key } (a.erase key) g :=
  ⟨h.encoded.erase (k := key) fun _ _ e => e,
    fun k o hl => h.held k o (Table.lookup_erase_eq_some.mp hl).2, h.known⟩

end Inv

/-! ### One operation -/

/-- What a lookup tells a call that waits for one. -/
def observe (c : S3Task) (found : Option S3Object) : Phase S3Outcome → Phase S3Outcome
  | .waiting =>
    match c with
    | .request _ (.getObject bucket key) =>
      .seen (.response (getAnswer (fullKey bucket key) (detectContentType (fullKey bucket key))
        found))
    | .request _ (.headObject bucket key) =>
      .seen (.response (headAnswer (fullKey bucket key) found))
    | _ => .waiting
  | φ => φ

/-- What a lookup found. -/
def found (key : Text) : Option S3Object → Except Error KeyMapping
  | some object => .ok (object.stored key)
  | none => .error (keyNotFound key)

/-- What a lookup teaches. -/
def tokens : Option S3Object → S3Ghost
  | some object => {(object.capsuleId, object.data)}
  | none => 0

/-- What a call may come to do. -/
def may (c : S3Task) : S3Op → Phase S3Outcome × S3Ghost → Prop
  | .insertMapping key mapping, (φ, g) =>
    φ = .waiting ∧ ∃ header bucket k data id createdAt,
      c = .request header (.putObject bucket k data id (some createdAt)) ∧ key = fullKey bucket k ∧
      mapping = S3Object.stored key ⟨data, id, createdAt⟩ ∧ (id, data) ∈ g
  | .mapping key, (φ, _) => φ = .waiting → ∃ header bucket k, key = fullKey bucket k ∧
      (c = .request header (.getObject bucket k) ∨ c = .request header (.headObject bucket k))
  | .mappings start ord, (φ, _) =>
    φ = .waiting ∧ ∃ header bucket, c = .request header (.listObjects bucket ord) ∧
      start = fullKey bucket []
  | .removeMapping key, (φ, _) =>
    φ = .waiting ∧ ∃ header bucket k, c = .request header (.deleteObject bucket k) ∧
      key = fullKey bucket k
  | _, _ => True

/-- What the operations tell a call. -/
def moves (c : S3Task) : Moves S3Sig Error (Phase S3Outcome × S3Ghost)
  | .permits _, x, r, x' => (∃ b, r = .ok b) ∧ x' = x
  | .updateAllowList _, x, r, x' => r = .ok () ∧ x' = x
  | .writeCapsule id data, x, r, x' =>
    r = .ok id ∧ x' = (x.1, (id, data) ::ₘ x.2) ∨ (∃ e, r = .error e) ∧ x' = x
  | .readCapsule id, x, r, x' => (∀ data, (id, data) ∈ x.2 → r = .ok data) ∧ x' = x
  | .insertMapping _ mapping, x, r, x' =>
    r = .ok () ∧ x' = (.done (.response ⟨200, [.etag mapping.capsuleId], .empty⟩), x.2)
  | .mapping key, x, r, x' =>
    ∃ o, r = found key o ∧ x' = (observe c o x.1, tokens o + x.2)
  | .mappings _ _, x, r, x' => ∃ bucket mappings, r = .ok mappings ∧ x' =
    (.seen (.response ⟨200, [], .listing ⟨bucket, mappings.map KeyMapping.metadata⟩⟩), x.2) ∧
      ∀ header b ord, c = .request header (.listObjects b ord) → b = bucket
  | .removeMapping key, x, r, x' =>
    r = .ok () ∧ x' = (.done (.response ⟨204, [], .empty⟩), x.2) ∨
    r = .error (keyNotFound key) ∧
      x' = (.seen (.response (.failed 404 (keyNotFound key))), x.2)

/-- What one operation does to the simulation. -/
def Stepped (c : S3Task) (o : S3Op) (s : S3Server) (a : StoredObjects) (φ : Phase S3Outcome)
    (g f : S3Ghost) : Prop :=
  ∀ r s', Does o s r s' → ∃ φ' g' a', moves c o (φ, g) r (φ', g') ∧
    Advances storeObject c a φ a' φ' ∧ Inv s' a' (g' + f)

theorem exec_mapping (h : s.Inv a g) (key : Text) :
    exec (.mapping key) s = (found key (a.lookup key), s) := by
  simp only [exec, h.lookup key]
  cases a.lookup key <;> rfl

theorem stepped_mapping {key : Text} (h : s.Inv a (g + f)) (hm : may c (.mapping key) (φ, g)) :
    Stepped c (.mapping key) s a φ g f := by
  rintro r s' (⟨-, hexec⟩ | ⟨hfails, -, -⟩)
  · obtain ⟨rfl, rfl⟩ := Prod.mk.inj ((exec_mapping h key).symm.trans hexec)
    refine ⟨_, _, a, ⟨a.lookup key, rfl, rfl⟩, ?_, ?_⟩
    · cases φ with
      | waiting =>
          obtain ⟨header, bucket, k, rfl, rfl | rfl⟩ := hm rfl
          · exact .observes (.inr ⟨_, rfl, ⟨_, List.mem_cons_self, rfl⟩, rfl⟩)
          · exact .observes (.inr ⟨_, rfl, rfl, rfl⟩)
      | done r => exact .stays _ _
      | seen r => exact .stays _ _
    · cases hl : a.lookup key with
      | none =>
          show s.Inv a (0 + g + f)
          rwa [zero_add]
      | some object =>
          show s.Inv a ({(object.capsuleId, object.data)} + g + f)
          rw [Multiset.singleton_add, Multiset.cons_add]
          exact h.learns hl
  · exact hfails.elim

theorem stepped_mappings {start : Text} {ord : Order (Sigma fun _ : Text => KeyMapping)}
    (h : s.Inv a (g + f)) (hm : may c (.mappings start ord) (φ, g)) :
    Stepped c (.mappings start ord) s a φ g f := by
  obtain ⟨rfl, header, bucket, rfl, rfl⟩ := hm
  rintro r s' (⟨-, hexec⟩ | ⟨hfails, -, -⟩)
  · obtain ⟨rfl, rfl⟩ := Prod.mk.inj (show (Except.ok _, s) = (r, s') from hexec)
    refine ⟨_, g, a, ⟨bucket, _, rfl, rfl, fun _ _ _ e => by cases e; rfl⟩,
      .observes (.inr ⟨_, rfl, rfl, _, rfl, ?_⟩), h⟩
    have hperm := ((ord.perm s.keyMap.entries).filter
      fun e => (fullKey bucket []).isPrefixOf e.1).map Sigma.snd
    have hobjects := h.encoded.filter (p := (fullKey bucket []).isPrefixOf)
      (q := (fullKey bucket []).isPrefixOf) fun _ _ => rfl
    refine ((hperm.trans hobjects).map KeyMapping.metadata).trans (List.Perm.of_eq ?_)
    rw [List.map_map]
    rfl
  · exact hfails.elim

theorem stepped_removeMapping {key : Text} (h : s.Inv a (g + f))
    (hm : may c (.removeMapping key) (φ, g)) : Stepped c (.removeMapping key) s a φ g f := by
  obtain ⟨rfl, header, bucket, k, rfl, rfl⟩ := hm
  have hlookup := h.lookup (fullKey bucket k)
  rintro r s' (⟨-, hexec⟩ | ⟨hfails, -, -⟩)
  · simp only [exec, hlookup] at hexec
    cases hl : a.lookup (fullKey bucket k) with
    | none =>
        rw [hl] at hexec
        cases hexec
        exact ⟨_, g, a, .inr ⟨rfl, rfl⟩, .observes (.inr ⟨_, rfl, by rw [hl]; rfl,
          (Table.erase_of_lookup_none hl).symm⟩), h⟩
    | some object =>
        rw [hl] at hexec
        cases hexec
        exact ⟨_, g, _, .inl ⟨rfl, rfl⟩,
          .commits (.inr ⟨_, rfl, by rw [hl]; rfl, rfl⟩), h.erases _⟩
  · exact hfails.elim

/-- **One operation of any call.** -/
theorem stepped {o : S3Op} (h : s.Inv a (g + f)) (hm : may c o (φ, g)) : Stepped c o s a φ g f := by
  rintro r s' (⟨hfresh, hexec⟩ | ⟨hfails, ⟨e, rfl⟩, rfl⟩)
  · obtain ⟨rfl, rfl⟩ := Prod.mk.inj (show ((exec o s).1, (exec o s).2) = (r, s') from hexec)
    cases o with
    | permits spiffe => exact ⟨φ, g, a, ⟨⟨_, rfl⟩, rfl⟩, .stays _ _, h⟩
    | updateAllowList ids =>
        exact ⟨φ, g, a, ⟨rfl, rfl⟩, .stays _ _, h.encoded, h.held, h.known⟩
    | writeCapsule id data =>
        refine ⟨φ, (id, data) ::ₘ g, a, .inl ⟨rfl, rfl⟩, .stays _ _, ?_⟩
        rw [Multiset.cons_add]
        exact h.writes hfresh
    | readCapsule id =>
        refine ⟨φ, g, a, ⟨fun data hd => ?_, rfl⟩, .stays _ _, h⟩
        have hlive : s.store.capsules.lookup id = some data :=
          h.known (id, data) (Multiset.mem_add.mpr (.inl hd))
        show s.store.read id = .ok data
        unfold CapsuleStore.read
        rw [hlive]
    | insertMapping key mapping =>
        obtain ⟨rfl, header, bucket, k, data, id, createdAt, rfl, rfl, rfl, hknown⟩ := hm
        exact ⟨_, g, _, ⟨rfl, rfl⟩,
          .commits (.inr ⟨_, rfl, .inl ⟨createdAt, rfl, rfl, rfl⟩⟩),
          h.inserts (Multiset.mem_add.mpr (.inl hknown))⟩
    | mapping key => exact stepped_mapping h hm _ _ (.inl ⟨hfresh, hexec⟩)
    | mappings start ord => exact stepped_mappings h hm _ _ (.inl ⟨hfresh, hexec⟩)
    | removeMapping key => exact stepped_removeMapping h hm _ _ (.inl ⟨hfresh, hexec⟩)
  · cases o with
    | writeCapsule id data => exact ⟨φ, g, a, .inr ⟨⟨e, rfl⟩, rfl⟩, .stays _ _, h⟩
    | readCapsule id =>
        refine ⟨φ, g, a, ⟨fun data hd => ?_, rfl⟩, .stays _ _, h⟩
        have hlive := h.known (id, data) (Multiset.mem_add.mpr (.inl hd))
        exact absurd (hfails.symm.trans hlive) nofun
    | _ => exact hfails.elim

/-! ### The handlers -/

/-- One operation, by what it tells the call. -/
theorem wp_op (o : S3Op) {Q : Except Error o.Res → Phase S3Outcome × S3Ghost → Prop}
    (hm : may c o (φ, g)) (h : ∀ r φ' g', moves c o (φ, g) r (φ', g') → Q r (φ', g')) :
    (perform (S := S3Sig) o : S3Prog o.Res).wp (moves c) (may c) Q (φ, g) :=
  wp_perform.mpr ⟨hm, fun r x hr => h r x.1 x.2 hr⟩

/-- The end of a handler. -/
def Responds (c : S3Task) (r : Except Error HttpResponse) (x : Phase S3Outcome × S3Ghost) : Prop :=
  SettledLike S3Task.Like storeObject c (r.map S3Outcome.response) x

variable {header : Option Bytes} {bucket key : Text}

theorem responds_put {data : Bytes} {id : CapsuleId} {now : Option Nat} :
    let c := S3Task.request header (.putObject bucket key data id now)
    (HttpRequest.putObject bucket key data id now).handler.wp (moves c) (may c) (Responds c)
      (.waiting, 0) := by
  intro c
  refine wp_bind.mpr (wp_attempt.mpr (wp_bind.mpr (wp_op (.writeCapsule id data) trivial ?_)))
  rintro r φ' g' (⟨rfl, e⟩ | ⟨⟨e, rfl⟩, e'⟩)
  · cases e
    cases now with
    | none => exact .inr ⟨rfl, fun a => .inr ⟨_, rfl, .inr ⟨⟨clockError, rfl⟩, rfl⟩⟩⟩
    | some createdAt =>
        refine wp_bind.mpr (wp_op (.insertMapping _ _) ⟨rfl, header, bucket, key, data, id,
          createdAt, rfl, rfl, ?_, Multiset.mem_cons_self _ _⟩ ?_)
        · rw [S3Object.stored, detectContentType_fullKey]
        · rintro r φ' g' ⟨rfl, e⟩
          cases e
          exact .inl ⟨_, rfl, .refl _ _⟩
  · cases e'
    exact .inr ⟨rfl, fun a => .inr ⟨_, rfl, .inr ⟨⟨e, rfl⟩, rfl⟩⟩⟩

/-- A content type of a `GET` that the second lookup gives. -/
theorem like_get {t t' : Text} (found : Option S3Object)
    (ht : t ∈ getTypes (fullKey bucket key)) (ht' : t' ∈ getTypes (fullKey bucket key)) :
    (S3Task.request header (.getObject bucket key)).Like
      (.response (getAnswer (fullKey bucket key) t found))
      (.response (getAnswer (fullKey bucket key) t' found)) :=
  .inr ⟨header, bucket, key, found, rfl, t, ht, t', ht', rfl, rfl⟩

theorem responds_get :
    let c := S3Task.request header (.getObject bucket key)
    (HttpRequest.getObject bucket key).handler.wp (moves c) (may c) (Responds c)
      (.waiting, 0) := by
  intro c
  have hfirst : detectContentType (fullKey bucket key) ∈ getTypes (fullKey bucket key) :=
    List.mem_cons_self
  refine wp_bind.mpr (wp_attempt.mpr (wp_bind.mpr (wp_op (.mapping (fullKey bucket key))
    (fun _ => ⟨header, bucket, key, rfl, .inl rfl⟩) ?_)))
  rintro r φ' g' ⟨object, rfl, e⟩
  cases e
  cases object with
  | none => exact .inl ⟨_, rfl, .refl _ _⟩
  | some object =>
      refine wp_op (.readCapsule object.capsuleId) trivial ?_
      rintro r φ' g' ⟨hr, e⟩
      cases e
      obtain rfl : r = .ok object.data := hr object.data (Multiset.mem_singleton_self _)
      -- the second lookup settles the content type
      refine wp_bind.mpr (wp_attempt.mpr (wp_op (.mapping (fullKey bucket key)) nofun ?_))
      rintro r φ' g' ⟨object', rfl, e⟩
      cases e
      cases object' with
      | none =>
          exact .inl ⟨_, rfl, like_get (some object) hfirst
            (List.mem_cons_of_mem _ (List.mem_singleton_self _))⟩
      | some object' => exact .inl ⟨_, rfl, .refl _ _⟩

theorem responds_head :
    let c := S3Task.request header (.headObject bucket key)
    (HttpRequest.headObject bucket key).handler.wp (moves c) (may c) (Responds c)
      (.waiting, 0) := by
  intro c
  refine wp_bind.mpr (wp_attempt.mpr (wp_op (.mapping (fullKey bucket key))
    (fun _ => ⟨header, bucket, key, rfl, .inr rfl⟩) ?_))
  rintro r φ' g' ⟨object, rfl, e⟩
  cases e
  cases object with
  | none => exact .inl ⟨_, rfl, .refl _ _⟩
  | some object => exact .inl ⟨_, rfl, .refl _ _⟩

theorem responds_list {ord : Order (Sigma fun _ : Text => KeyMapping)} :
    let c := S3Task.request header (.listObjects bucket ord)
    (HttpRequest.listObjects bucket ord).handler.wp (moves c) (may c) (Responds c)
      (.waiting, 0) := by
  intro c
  refine wp_bind.mpr (wp_attempt.mpr (wp_op (.mappings (fullKey bucket []) ord)
    ⟨rfl, header, bucket, rfl, rfl⟩ ?_))
  rintro r φ' g' ⟨bucket', mappings, rfl, e, hb⟩
  cases e
  obtain rfl := hb header bucket ord rfl
  exact .inl ⟨_, rfl, .refl _ _⟩

theorem responds_delete :
    let c := S3Task.request header (.deleteObject bucket key)
    (HttpRequest.deleteObject bucket key).handler.wp (moves c) (may c) (Responds c)
      (.waiting, 0) := by
  intro c
  refine wp_bind.mpr (wp_attempt.mpr (wp_op (.removeMapping (fullKey bucket key))
    ⟨rfl, header, bucket, key, rfl, rfl⟩ ?_))
  rintro r φ' g' (⟨rfl, e⟩ | ⟨rfl, e⟩)
  · cases e
    exact .inl ⟨_, rfl, .refl _ _⟩
  · cases e
    exact .inl ⟨_, rfl, .refl _ _⟩

/-- **Every handler** is served in one step. -/
theorem responds (header : Option Bytes) (request : HttpRequest) :
    request.handler.wp (moves (.request header request)) (may (.request header request))
      (Responds (.request header request)) (.waiting, 0) := by
  cases request with
  | putObject bucket key data id now => exact responds_put
  | getObject bucket key => exact responds_get
  | headObject bucket key => exact responds_head
  | listObjects bucket ord => exact responds_list
  | deleteObject bucket key => exact responds_delete
  | healthCheck => exact .inr ⟨rfl, fun a => .inr ⟨_, rfl, rfl, rfl⟩⟩

/-- A request that is turned away. -/
theorem responds_rejected {request : HttpRequest} (rejection : MtlsRejection) :
    Responds (.request header request) (.ok (.rejected rejection)) (.waiting, 0) :=
  .inr ⟨rfl, fun _ => .inl ⟨⟨rejection, rfl⟩, rfl⟩⟩

theorem settles (parse : Text → Except Error (List Text)) (c : S3Task) :
    (c.program parse).wp (moves c) (may c) (SettledLike S3Task.Like storeObject c)
      (.waiting, 0) := by
  cases c with
  | request header request =>
      refine wp_bind.mpr (wp_mono (Q := Responds (.request header request)) ?_ ?_)
      · unfold enforceMtls authorize
        cases spiffeOf header with
        | error rejection => exact responds_rejected rejection
        | ok spiffe =>
            refine wp_bind.mpr (wp_bind.mpr (wp_op (.permits spiffe) trivial ?_))
            rintro r φ' g' ⟨⟨b, rfl⟩, e⟩
            cases e
            cases b with
            | false => exact responds_rejected _
            | true => exact responds header request
      · rintro (e | response) x h <;> exact h
  | refresh endpoint socket =>
      have hrefreshed : SettledLike S3Task.Like storeObject (.refresh endpoint socket)
          (.ok S3Outcome.refreshed : Except Error S3Outcome) (.waiting, (0 : S3Ghost)) :=
        .inr ⟨rfl, fun _ => ⟨rfl, rfl⟩⟩
      refine wp_bind.mpr ?_
      unfold refreshAllowed
      cases fetchAllowed parse endpoint socket with
      | error e => exact hrefreshed
      | ok ids =>
          dsimp only
          split
          · exact hrefreshed
          · refine wp_op (.updateAllowList ids) trivial ?_
            rintro r φ' g' ⟨rfl, e⟩
            cases e
            exact hrefreshed

/-- The server against the object its clients believe in. -/
def linear (parse : Text → Except Error (List Text)) :
    Linear S3Sig Error S3Server S3Ghost S3Task StoredObjects S3Outcome where
  program := S3Task.program parse
  exec := Does
  object := storeObject
  may := may
  moves := moves
  Inv := Inv
  like := S3Task.Like
  refl := S3Task.Like.refl
  leaves := storeObject_leaves
  step := fun h hm hr => stepped h hm _ _ hr
  drop := Inv.drop
  settles := settles parse

end S3Server

/-! ### Who is let in -/

/-- What the gateway made of a task. -/
inductive Verdict where
  | passed
  | turnedAway (r : HttpResponse)
  | refreshed
  deriving DecidableEq, Repr

/-- The statuses of a rejection are those of no handler. -/
def HttpResponse.verdict (r : HttpResponse) : Verdict :=
  if r.status ∈ [400, 401, 403] then .turnedAway r else .passed

def S3Outcome.verdict : S3Outcome → Verdict
  | response r => r.verdict
  | refreshed => .refreshed

/-- The object that the gateway is: a request is judged by the list there is, and a refresh that
brings identities replaces it. -/
def gateObject (parse : Text → Except Error (List Text)) : Atomic S3Task (List Text) Verdict
  | .request header _, a, r, a' =>
    a' = a ∧ r = match spiffeOf header with
      | .error rejection => .turnedAway (.rejected rejection)
      | .ok spiffe =>
        if Permits a spiffe then .passed else .turnedAway (.rejected (.unauthorized spiffe))
  | .refresh endpoint socket, a, r, a' =>
    r = .refreshed ∧ a' = match fetchAllowed parse endpoint socket with
      | .ok ids => if ids = [] then a else ids
      | .error _ => a

namespace Gate

/-- An operation that has nothing to do with the list. -/
def Elsewhere : S3Op → Prop
  | .permits _ => False
  | .updateAllowList _ => False
  | _ => True

def may (parse : Text → Except Error (List Text)) (c : S3Task) :
    S3Op → Phase Verdict × PUnit → Prop
  | .permits spiffe, (φ, _) =>
    φ = .waiting ∧ ∃ header request, c = .request header request ∧ spiffeOf header = .ok spiffe
  | .updateAllowList ids, (φ, _) =>
    φ = .waiting ∧ ids ≠ [] ∧ ∃ endpoint socket, c = .refresh endpoint socket ∧
      fetchAllowed parse endpoint socket = .ok ids
  | _, _ => True

def moves : Moves S3Sig Error (Phase Verdict × PUnit)
  | .permits spiffe, _, r, x' => ∃ b : Bool, r = .ok b ∧ x'.1 =
    .seen (if b then .passed else .turnedAway (.rejected (.unauthorized spiffe)))
  | .updateAllowList _, _, r, x' => r = .ok () ∧ x'.1 = .done .refreshed
  | _, x, _, x' => x' = x

variable {parse : Text → Except Error (List Text)} {c : S3Task} {φ : Phase Verdict} {α : Type}

/-- What has nothing to do with the list keeps the verdict. -/
theorem wp_elsewhere {p : S3Prog α} (hp : p.Uses Elsewhere)
    {Q : Except Error α → Phase Verdict × PUnit → Prop} {x : Phase Verdict × PUnit}
    (hQ : ∀ r, Q r x) : p.wp moves (may parse c) Q x := by
  induction p with
  | ret a => exact hQ _
  | fail e => exact hQ _
  | call o k ih =>
      obtain ⟨ho, hk⟩ := hp
      have hsame : ∀ r x', moves o x r x' → x' = x := by
        intro r x' hr
        cases o <;> first | exact hr | exact ho.elim
      refine ⟨?_, fun r x' hr => ?_⟩
      · cases o <;> trivial
      · rw [hsame r x' hr]
        exact ih r (hk r)

theorem uses_op (o : S3Op) (h : Elsewhere o) :
    (perform (S := S3Sig) o : S3Prog o.Res).Uses Elsewhere := uses_perform.mpr h

/-- The handlers have nothing to do with it, and no response of theirs is a rejection. -/
theorem wp_handler (request : HttpRequest) (x : Phase Verdict × PUnit) :
    request.handler.wp moves (may parse c) (fun r x' => x' = x ∧ ∃ response, r = .ok response ∧
      response.verdict = .passed) x := by
  cases request with
  | putObject bucket key data id now =>
      refine wp_bind.mpr (wp_attempt.mpr (wp_elsewhere
        (uses_bind (uses_op (.writeCapsule id data) trivial) fun _ => ?_) ?_))
      · cases now with
        | none => trivial
        | some _ => exact uses_bind (uses_op (.insertMapping _ _) trivial) fun _ => trivial
      · rintro (e | capsuleId) <;> exact ⟨rfl, _, rfl, rfl⟩
  | getObject bucket key =>
      have huses : (S3Prog.getObject bucket key).Uses Elsewhere :=
        uses_bind (uses_op (.mapping _) trivial) fun m => uses_op (.readCapsule _) trivial
      refine wp_bind.mpr (wp_attempt.mpr (wp_elsewhere huses ?_))
      rintro (e | data)
      · exact ⟨rfl, _, rfl, rfl⟩
      · refine wp_bind.mpr (wp_attempt.mpr (wp_elsewhere (uses_op (.mapping _) trivial) ?_))
        rintro (e | mapping) <;> exact ⟨rfl, _, rfl, rfl⟩
  | headObject bucket key =>
      refine wp_bind.mpr (wp_attempt.mpr (wp_elsewhere (uses_op (.mapping _) trivial) ?_))
      rintro (e | mapping) <;> exact ⟨rfl, _, rfl, rfl⟩
  | listObjects bucket ord =>
      refine wp_bind.mpr (wp_attempt.mpr (wp_elsewhere (uses_op (.mappings _ ord) trivial) ?_))
      rintro (e | mappings) <;> exact ⟨rfl, _, rfl, rfl⟩
  | deleteObject bucket key =>
      refine wp_bind.mpr (wp_attempt.mpr (wp_elsewhere (uses_op (.removeMapping _) trivial) ?_))
      rintro (e | u) <;> exact ⟨rfl, _, rfl, rfl⟩
  | healthCheck => exact ⟨rfl, _, rfl, rfl⟩

/-- One operation, by what it tells the call. -/
theorem wp_op (o : S3Op) {Q : Except Error o.Res → Phase Verdict × PUnit → Prop}
    {x : Phase Verdict × PUnit} (hm : may parse c o x) (h : ∀ r x', moves o x r x' → Q r x') :
    (perform (S := S3Sig) o : S3Prog o.Res).wp moves (may parse c) Q x := wp_perform.mpr ⟨hm, h⟩

/-- A header that names no identity. -/
theorem verdict_of_spiffeOf {header : Option Bytes} {rejection : MtlsRejection}
    (h : spiffeOf header = .error rejection) :
    (HttpResponse.rejected rejection).verdict = .turnedAway (.rejected rejection) := by
  unfold spiffeOf at h
  split at h
  · cases h
    rfl
  · split at h
    · cases h
      rfl
    · cases h

theorem settles (c : S3Task) : (c.program parse >>= fun r => .ret r.verdict).wp moves (may parse c)
    (Settled (gateObject parse) c) (.waiting, PUnit.unit) := by
  cases c with
  | request header request =>
      refine wp_bind.mpr (wp_bind.mpr ?_)
      unfold enforceMtls authorize
      cases hs : spiffeOf header with
      | error rejection =>
          refine .inr ⟨rfl, fun a => ⟨rfl, ?_⟩⟩
          rw [hs]
          exact verdict_of_spiffeOf hs
      | ok spiffe =>
          refine wp_bind.mpr (wp_bind.mpr (wp_op (.permits spiffe)
            ⟨rfl, header, request, rfl, hs⟩ ?_))
          rintro r ⟨φ', u⟩ ⟨b, rfl, e⟩
          cases e
          cases b with
          | false => exact .inl rfl
          | true =>
              show Prog.wp _ _ _ request.handler _
              refine wp_mono (wp_handler request _) ?_
              rintro r x ⟨rfl, response, rfl, hv⟩
              exact .inl hv.symm
  | refresh endpoint socket =>
      refine wp_bind.mpr (wp_bind.mpr ?_)
      unfold refreshAllowed
      cases hf : fetchAllowed parse endpoint socket with
      | error e => exact .inr ⟨rfl, fun a => ⟨rfl, by rw [hf]⟩⟩
      | ok ids =>
          dsimp only
          split
          · next he => exact .inr ⟨rfl, fun a => ⟨rfl, by simp only [hf, if_pos he]⟩⟩
          · next he =>
              refine wp_op (.updateAllowList ids) ⟨rfl, he, endpoint, socket, rfl, hf⟩ ?_
              rintro r ⟨φ', u⟩ ⟨rfl, e⟩
              cases e
              exact .inl rfl

theorem exec_elsewhere {o : S3Op} (h : Elsewhere o) (s : S3Server) :
    (S3Server.exec o s).2.allowed = s.allowed := by
  cases o with
  | permits => exact h.elim
  | updateAllowList => exact h.elim
  | mapping key =>
      simp only [S3Server.exec]
      cases s.keyMap.lookup key <;> rfl
  | removeMapping key =>
      simp only [S3Server.exec]
      cases s.keyMap.lookup key <;> rfl
  | _ => rfl

/-- **One operation of any task.** -/
theorem stepped {o : S3Op} {s s' : S3Server} {a : List Text} {r : Except Error o.Res}
    (h : s.allowed = a) (hm : may parse c o (φ, PUnit.unit)) (hr : S3Server.Does o s r s') :
    ∃ φ' g' a', moves o (φ, PUnit.unit) r (φ', g') ∧
      Advances (gateObject parse) c a φ a' φ' ∧ s'.allowed = a' := by
  subst h
  have hkept : Elsewhere o → (S3Server.exec o s).2.allowed = s.allowed :=
    fun h => exec_elsewhere h s
  rcases hr with ⟨-, hexec⟩ | ⟨hfails, -, rfl⟩
  · obtain ⟨rfl, rfl⟩ := Prod.mk.inj (show ((S3Server.exec o s).1, (S3Server.exec o s).2) = (r, s')
      from hexec)
    cases o with
    | permits spiffe =>
        obtain ⟨rfl, header, request, rfl, hs⟩ := hm
        refine ⟨.seen (if decide (Permits s.allowed spiffe) then .passed
          else .turnedAway (.rejected (.unauthorized spiffe))), .unit, s.allowed,
          ⟨decide (Permits s.allowed spiffe), rfl, rfl⟩, .observes ⟨rfl, ?_⟩, rfl⟩
        simp only [hs, decide_eq_true_eq]
    | updateAllowList ids =>
        obtain ⟨rfl, hne, endpoint, socket, rfl, hf⟩ := hm
        refine ⟨.done .refreshed, .unit, ids, ⟨rfl, rfl⟩, .commits ⟨rfl, ?_⟩, rfl⟩
        simp only [hf, if_neg hne]
    | _ => exact ⟨φ, .unit, s.allowed, rfl, .stays _ _, hkept trivial⟩
  · cases o with
    | writeCapsule id data => exact ⟨φ, .unit, s'.allowed, rfl, .stays _ _, rfl⟩
    | readCapsule id => exact ⟨φ, .unit, s'.allowed, rfl, .stays _ _, rfl⟩
    | _ => exact hfails.elim

/-- The server against the gateway its clients believe in. -/
def linear (parse : Text → Except Error (List Text)) :
    Linear S3Sig Error S3Server PUnit S3Task (List Text) Verdict where
  program := fun c => c.program parse >>= fun r => .ret r.verdict
  exec := S3Server.Does
  object := gateObject parse
  may := may parse
  moves := fun _ => moves
  Inv := fun s a _ => s.allowed = a
  like := fun _ => Eq
  refl := fun _ _ => rfl
  leaves := fun h e => e ▸ h
  step := fun h hm hr => stepped h hm hr
  drop := fun h => h
  settles := fun c => wp_mono (settles c) fun _ _ h => h.exact

/-- **A list stays one**: a refresh that brings nobody changes nothing. -/
theorem stays_closed {ι : Type} {a₀ a : List Text} {t : List (Event ι S3Task Verdict Error)}
    {l : List (ι × S3Task × Phase Verdict)} (h : AtomicRun (gateObject parse) a₀ t a l)
    (h₀ : a₀ ≠ []) : a ≠ [] := by
  induction h with
  | start => exact h₀
  | @commit t a a' before after i c r _ hc ih =>
      cases c with
      | request header request => exact hc.1 ▸ ih
      | refresh endpoint socket =>
          obtain ⟨-, rfl⟩ := hc
          split
          · split
            · exact ih
            · next hne => exact hne
          · exact ih
  | _ => assumption

end Gate

/-! ### The theorem -/

section
variable {ι : Type} {parse : Text → Except Error (List Text)} {s₀ s : S3Server}
  {t : List (Event ι S3Task S3Outcome Error)} {l : List (ι × S3Task × S3Prog S3Outcome)}

/-- What is stored. -/
theorem S3Server.atomic_store (hs : s₀.keyMap = ∅)
    (h : ClientRun (S3Task.program parse) S3Server.Does s₀ t s l) :
    ∃ a m g, AtomicRun storeObject ∅ t a m ∧ s.Inv a g := by
  have h₀ : s₀.Inv ∅ 0 := by
    refine ⟨hs ▸ Encoded.empty, fun key object hl => ?_, fun p hp => ?_⟩
    · rw [AList.lookup_empty] at hl
      cases hl
    · exact absurd hp (Multiset.notMem_zero _)
  obtain ⟨a, m, hr, _, _, _, hI⟩ := (S3Server.linear parse).linearizes h₀ h
  exact ⟨a, m, _, hr, hI⟩

/-- Who is let in. -/
theorem S3Server.atomic_gate (h : ClientRun (S3Task.program parse) S3Server.Does s₀ t s l) :
    (∃ m, AtomicRun (gateObject parse) s₀.allowed (t.map (Event.map S3Outcome.verdict)) s.allowed
      m) ∧ (s₀.allowed ≠ [] → s.allowed ≠ []) := by
  obtain ⟨allowed, m, hr, _, _, _, hallowed⟩ :=
    (Gate.linear parse).linearizes (show (Gate.linear parse).Inv s₀ s₀.allowed 0 from rfl)
      (h.map S3Outcome.verdict)
  obtain rfl : s.allowed = allowed := hallowed
  exact ⟨⟨m, hr⟩, Gate.stays_closed hr⟩

/-- **The server is linearizable behind its gateway.**  Whatever requests and refreshes run side by
side: what is stored is one object that serves each request at one moment of it, or turns it away
without effect; the verdict on each request is that of the allow-list of one moment of it; and a
list that is there does not become empty. -/
theorem s3Server_linearizable (hs : s₀.keyMap = ∅)
    (h : ClientRun (S3Task.program parse) S3Server.Does s₀ t s l) :
    (∃ a m, AtomicRun storeObject ∅ t a m ∧
      (∀ key, s.keyMap.lookup key = (a.lookup key).map (S3Object.stored key)) ∧
      ∀ key object, a.lookup key = some object →
        s.store.read object.capsuleId = .ok object.data) ∧
    (∃ m, AtomicRun (gateObject parse) s₀.allowed (t.map (Event.map S3Outcome.verdict)) s.allowed
      m) ∧
    (s₀.allowed ≠ [] → s.allowed ≠ []) := by
  obtain ⟨a, m, _, hr, hI⟩ := S3Server.atomic_store hs h
  refine ⟨⟨a, m, hr, hI.lookup, fun key object hl => ?_⟩, S3Server.atomic_gate h⟩
  rw [CapsuleStore.read, hI.held key object hl]

end

/-- The test of a schedule. -/
def S3Server.isFresh : S3Op → S3Server → Bool
  | .writeCapsule id _, s => decide (id ∉ s.store.used)
  | _, _ => true

theorem S3Server.does_of_isFresh (o : S3Op) (s : S3Server) (h : isFresh o s = true) :
    Does o s (exec o s).1 (exec o s).2 := by
  refine .inl ⟨?_, rfl⟩
  cases o with
  | writeCapsule id data =>
      have hid : id ∉ s.store.used := of_decide_eq_true h
      exact hid
  | _ => trivial

/-- Client 0, who is let in, puts an object; before the capsule is written, client 1 brings a list
with somebody else on it, who deletes the object as client 3 while client 2 gets it; then client 4
comes with the identity of client 0. -/
def revokedTurns : List (Turn Nat S3Task) :=
  [.invoke 0 (.request (some [97]) (.putObject ['b'] "k.txt".toList [1] ⟨1⟩ (some 0))), .next 0,
    .invoke 1 (.refresh "ws" (.ok [.ok .binary, .ok (.text ['c'])])), .next 0, .next 0,
    .next 0, .next 0, .next 0,
    .invoke 2 (.request (some [99]) (.getObject ['b'] "k.txt".toList)), .next 0, .next 0, .next 0,
    .invoke 3 (.request (some [99]) (.deleteObject ['b'] "k.txt".toList)), .next 0, .next 0,
    .next 0, .next 0, .next 0,
    .invoke 4 (.request (some [97]) (.getObject ['b'] "k.txt".toList)), .next 0, .next 0]

/-- What they are answered: the object that was got is not found again for its content type. -/
def revokedAnswers : List (Nat × S3Outcome) :=
  [(1, .refreshed), (0, .response ⟨200, [.etag ⟨1⟩], .empty⟩), (3, .response ⟨204, [], .empty⟩),
    (2, .response ⟨200, [.contentType "application/octet-stream".toList], .bytes [1]⟩),
    (4, .response (.rejected (.unauthorized ['a'])))]

/-- The put is judged by the old list, and takes effect; the get of its client is turned away by the
new one. -/
theorem s3Server_linearizable_revoked :
    ∃ s t l, ClientRun (S3Task.program fun text => .ok [text]) S3Server.Does (.new .empty ['a'])
        t s l ∧
      answersOf t = revokedAnswers ∧
      (∃ a m, AtomicRun storeObject ∅ t a m ∧
        (∀ key, s.keyMap.lookup key = (a.lookup key).map (S3Object.stored key)) ∧
        ∀ key object, a.lookup key = some object →
          s.store.read object.capsuleId = .ok object.data) ∧
      (∃ m, AtomicRun (gateObject fun text => .ok [text]) (allowedIds ['a'])
        (t.map (Event.map S3Outcome.verdict)) s.allowed m) ∧
      (allowedIds ['a'] ≠ [] → s.allowed ≠ []) := by
  have hs : (clientSchedule (S3Task.program fun text => .ok [text]) S3Server.exec S3Server.isFresh
      (.new .empty ['a']) revokedTurns).map (fun x => answersOf x.1) =
      some revokedAnswers := by decide +kernel
  obtain ⟨x, hx, e⟩ := Option.map_eq_some_iff.mp hs
  have hrun := clientRun_of_clientSchedule S3Server.does_of_isFresh hx
  exact ⟨_, _, _, hrun, e, s3Server_linearizable rfl hrun⟩

end Space
