import Space.Common.Error
import Space.Support.Encoded
import Space.Support.Paths

/-!
# Views — S3

The object view: a map from the texts `bucket/key` to capsules of the pipeline, which is a store
returning the bytes of each capsule.  Read as a map from pairs of a bucket and a key
(`S3Objects`), it answers as such a map as long as no two of the pairs have one text and no bucket
is a proper piece of the text of a pair in another one (`Clear`); where no bucket has a slash,
neither occurs.

* `history_answers`: in a run of clear calls every reply is the one of the map of pairs.
* `history_answers_of_plain`: so it is in every run over buckets without a slash.
* `not_history_answers`: it is not in every run.

The time is an argument of a call; it is `none` where the clock is before the epoch.
-/

namespace Space
open Support

/-- The pipeline as a store: what is written reads back, and what reads back stays. -/
structure PipelineBackend where
  State : Type
  init : State
  writeCapsule : State → Bytes → Except Error CapsuleId × State
  readCapsule : State → CapsuleId → Except Error Bytes
  read_written : ∀ {s : State} {data : Bytes} {id : CapsuleId},
    (writeCapsule s data).1 = .ok id → readCapsule (writeCapsule s data).2 id = .ok data
  read_kept : ∀ {s : State} {data : Bytes} {id : CapsuleId} (data' : Bytes),
    readCapsule s id = .ok data → readCapsule (writeCapsule s data').2 id = .ok data

structure KeyMapping where
  key : Text
  capsuleId : CapsuleId
  size : Nat
  createdAt : Nat
  contentType : Text
  deriving DecidableEq, Repr

structure S3View (B : PipelineBackend) where
  pipeline : B.State
  keyMap : Table Text KeyMapping

/-- `detect_content_type`. -/
def detectContentType (key : Text) : Text :=
  if ".txt".toList.isSuffixOf key then "text/plain".toList
  else if ".json".toList.isSuffixOf key then "application/json".toList
  else if ".html".toList.isSuffixOf key then "text/html".toList
  else if ".jpg".toList.isSuffixOf key || ".jpeg".toList.isSuffixOf key then "image/jpeg".toList
  else if ".png".toList.isSuffixOf key then "image/png".toList
  else "application/octet-stream".toList

/-- `format!("{}/{}", bucket, key)`. -/
def fullKey (bucket key : Text) : Text := bucket ++ '/' :: key

def keyNotFound (key : Text) : Error := .msg ("Key not found: " ++ String.ofList key)

/-- The clock is before the epoch. -/
def clockError : Error := .msg "second time provided was later than self"

namespace S3View
variable {B : PipelineBackend}

def new (B : PipelineBackend) : S3View B := ⟨B.init, ∅⟩

def putObject (view : S3View B) (bucket key : Text) (data : Bytes) (now : Option Nat) :
    Except Error CapsuleId × S3View B :=
  match B.writeCapsule view.pipeline data with
  | (.error e, pipeline) => (.error e, { view with pipeline := pipeline })
  | (.ok capsuleId, pipeline) =>
    match now with
    | none => (.error clockError, { view with pipeline := pipeline })
    | some createdAt =>
      let mapping : KeyMapping :=
        ⟨fullKey bucket key, capsuleId, data.length, createdAt, detectContentType key⟩
      (.ok capsuleId, ⟨pipeline, view.keyMap.insert (fullKey bucket key) mapping⟩)

def getObject (view : S3View B) (bucket key : Text) : Except Error Bytes :=
  match view.keyMap.lookup (fullKey bucket key) with
  | none => .error (keyNotFound (fullKey bucket key))
  | some mapping => B.readCapsule view.pipeline mapping.capsuleId

def headObject (view : S3View B) (bucket key : Text) : Except Error KeyMapping :=
  match view.keyMap.lookup (fullKey bucket key) with
  | none => .error (keyNotFound (fullKey bucket key))
  | some mapping => .ok mapping

/-- The values whose keys start with the bucket, in the order of the traversal. -/
def listObjects (view : S3View B) (bucket : Text) (ord : Order (Sigma fun _ : Text => KeyMapping)) :
    List KeyMapping :=
  ((ord.reorder view.keyMap.entries).filter fun e => (fullKey bucket []).isPrefixOf e.1).map
    Sigma.snd

def deleteObject (view : S3View B) (bucket key : Text) : Except Error Unit × S3View B :=
  match view.keyMap.lookup (fullKey bucket key) with
  | none => (.error (keyNotFound (fullKey bucket key)), view)
  | some _ => (.ok (), { view with keyMap := view.keyMap.erase (fullKey bucket key) })

end S3View

/-! ### Runs -/

inductive S3Call where
  | put (bucket key : Text) (data : Bytes) (now : Option Nat)
  | get (bucket key : Text)
  | head (bucket key : Text)
  | list (bucket : Text) (ord : Order (Sigma fun _ : Text => KeyMapping))
  | delete (bucket key : Text)

inductive S3Reply where
  | put (result : Except Error CapsuleId)
  | get (result : Except Error Bytes)
  | head (result : Except Error KeyMapping)
  | list (mappings : List KeyMapping)
  | delete (result : Except Error Unit)

def S3View.step {B : PipelineBackend} (view : S3View B) : S3Call → S3Reply × S3View B
  | .put bucket key data now =>
      (.put (view.putObject bucket key data now).1, (view.putObject bucket key data now).2)
  | .get bucket key => (.get (view.getObject bucket key), view)
  | .head bucket key => (.head (view.headObject bucket key), view)
  | .list bucket ord => (.list (view.listObjects bucket ord), view)
  | .delete bucket key =>
      (.delete (view.deleteObject bucket key).1, (view.deleteObject bucket key).2)

/-- The bucket of a call has no slash. -/
def S3Call.Plain : S3Call → Prop
  | .put bucket _ _ _ | .get bucket _ | .head bucket _ | .list bucket _ | .delete bucket _ =>
      '/' ∉ bucket

/-! ### The map of pairs -/

/-- What a pair of a bucket and a key is mapped to. -/
structure S3Object where
  data : Bytes
  capsuleId : CapsuleId
  createdAt : Nat

/-- An object store: a finite map from pairs of a bucket and a key. -/
abbrev S3Objects := Table (Text × Text) S3Object

/-- The metadata of an object. -/
def S3Object.mapping (pair : Text × Text) (object : S3Object) : KeyMapping where
  key := fullKey pair.1 pair.2
  capsuleId := object.capsuleId
  size := object.data.length
  createdAt := object.createdAt
  contentType := detectContentType pair.2

namespace S3Objects

/-- What a call makes of the map, by its reply: a put that fails changes nothing. -/
def after (objects : S3Objects) : S3Call → S3Reply → S3Objects
  | .put bucket key data now, .put (.ok id) =>
      now.elim objects fun now => objects.insert (bucket, key) ⟨data, id, now⟩
  | .delete bucket key, _ => objects.erase (bucket, key)
  | _, _ => objects

/-- An object, or the error that the pair has none. -/
def found {α : Type} (objects : S3Objects) (bucket key : Text) (f : S3Object → α) :
    Except Error α :=
  match objects.lookup (bucket, key) with
  | none => .error (keyNotFound (fullKey bucket key))
  | some object => .ok (f object)

/-- The reply of the map to a call; a list is in any order, and a put may fail. -/
def Answers (objects : S3Objects) : S3Call → S3Reply → Prop
  | .put _ _ _ _, reply => ∃ result, reply = .put result
  | .get bucket key, reply => reply = .get (objects.found bucket key S3Object.data)
  | .head bucket key, reply =>
      reply = .head (objects.found bucket key (S3Object.mapping (bucket, key)))
  | .list bucket _, reply => ∃ mappings, reply = .list mappings ∧ mappings.Perm
      ((objects.entries.filter fun e => decide (e.1.1 = bucket)).map fun e =>
        S3Object.mapping e.1 e.2)
  | .delete bucket key, reply => reply = .delete (objects.found bucket key fun _ => ())

/-- No other pair that is present has the text of the pair of the call, and no pair in another
bucket the text of one in the bucket that is listed. -/
def Clear (objects : S3Objects) : S3Call → Prop
  | .put bucket key _ _ | .get bucket key | .head bucket key | .delete bucket key =>
      Apart (fun pair : Text × Text => fullKey pair.1 pair.2) objects (bucket, key)
  | .list bucket _ =>
      ∀ pair ∈ objects, fullKey bucket [] <+: fullKey pair.1 pair.2 → pair.1 = bucket

end S3Objects

namespace S3View
variable {B : PipelineBackend} {view : S3View B} {objects : S3Objects}

/-- A run: before each call the map of pairs, the call, and its reply. -/
def history (view : S3View B) (objects : S3Objects) :
    List S3Call → List (S3Objects × S3Call × S3Reply)
  | [] => []
  | call :: calls =>
    (objects, call, (view.step call).1) ::
      history (view.step call).2 (objects.after call (view.step call).1) calls

/-- The view holds the map of pairs. -/
structure Holds (view : S3View B) (objects : S3Objects) : Prop where
  encoded : Encoded (fun pair : Text × Text => fullKey pair.1 pair.2) S3Object.mapping objects
    view.keyMap
  readable : ∀ pair object, objects.lookup pair = some object →
    B.readCapsule view.pipeline object.capsuleId = .ok object.data

theorem holds_new : (new B).Holds ∅ where
  encoded := Encoded.empty
  readable := fun _ _ h => absurd ((AList.lookup_empty _).symm.trans h) nofun

/-- A lookup at a clear pair. -/
theorem Holds.lookup (h : view.Holds objects) {bucket key : Text}
    (hc : Apart (fun pair : Text × Text => fullKey pair.1 pair.2) objects (bucket, key)) :
    view.keyMap.lookup (fullKey bucket key) =
      (objects.lookup (bucket, key)).map (S3Object.mapping (bucket, key)) := h.encoded.lookup hc

/-- **Every call that is clear is answered as the map of pairs answers it.** -/
theorem Holds.answers (h : view.Holds objects) {call : S3Call} (hc : objects.Clear call) :
    objects.Answers call (view.step call).1 := by
  cases call with
  | put bucket key data now => exact ⟨_, rfl⟩
  | get bucket key =>
      refine congrArg S3Reply.get ?_
      unfold getObject S3Objects.found
      rw [h.lookup hc]
      cases hl : objects.lookup (bucket, key) with
      | none => rfl
      | some object => exact h.readable _ _ hl
  | head bucket key =>
      refine congrArg S3Reply.head ?_
      unfold headObject S3Objects.found
      rw [h.lookup hc]
      cases objects.lookup (bucket, key) <;> rfl
  | list bucket ord =>
      refine ⟨_, rfl, ?_⟩
      have hperm := (((ord.perm view.keyMap.entries).filter
        fun e => (fullKey bucket []).isPrefixOf e.1).map Sigma.snd)
      refine hperm.trans (h.encoded.filter (q := fun pair => decide (pair.1 = bucket))
        fun pair hpair => ?_)
      -- the test finds the pairs of the bucket, and no others
      refine Bool.eq_iff_iff.mpr (List.isPrefixOf_iff_prefix.trans ?_)
      refine ⟨fun hp => decide_eq_true (hc pair hpair hp), fun hp => ?_⟩
      obtain rfl := of_decide_eq_true hp
      exact ⟨pair.2, List.append_assoc _ _ _⟩
  | delete bucket key =>
      refine congrArg S3Reply.delete ?_
      rw [deleteObject, S3Objects.found, h.lookup hc]
      cases objects.lookup (bucket, key) <;> rfl

/-- **Every call that is clear keeps the view and the map of pairs together.** -/
theorem Holds.step (h : view.Holds objects) {call : S3Call} (hc : objects.Clear call) :
    (view.step call).2.Holds (objects.after call (view.step call).1) := by
  cases call with
  | put bucket key data now =>
      have hkept : ∀ pair object, objects.lookup pair = some object →
          B.readCapsule (B.writeCapsule view.pipeline data).2 object.capsuleId = .ok object.data :=
        fun pair object hl => B.read_kept data (h.readable pair object hl)
      have hread : ∀ id, (B.writeCapsule view.pipeline data).1 = .ok id →
          B.readCapsule (B.writeCapsule view.pipeline data).2 id = .ok data :=
        fun _ => B.read_written
      show (view.putObject bucket key data now).2.Holds
        (objects.after (.put bucket key data now) (.put (view.putObject bucket key data now).1))
      unfold putObject
      cases hw : B.writeCapsule view.pipeline data with
      | mk result pipeline =>
          rw [hw] at hkept hread
          cases result with
          | error e => exact ⟨h.encoded, hkept⟩
          | ok id =>
              cases now with
              | none => exact ⟨h.encoded, hkept⟩
              | some now =>
                  have hinserted := Encoded.insert (v := S3Object.mk data id now) h.encoded hc
                  refine ⟨hinserted, fun pair object hl => ?_⟩
                  rcases Table.lookup_insert_eq_some.mp hl with ⟨-, rfl⟩ | ⟨-, hl⟩
                  · exact hread id rfl
                  · exact hkept pair object hl
  | get bucket key => exact h
  | head bucket key => exact h
  | list bucket ord => exact h
  | delete bucket key =>
      have hview : (view.deleteObject bucket key).2 =
          { view with keyMap := view.keyMap.erase (fullKey bucket key) } := by
        unfold deleteObject
        cases hl : view.keyMap.lookup (fullKey bucket key) with
        | none => exact congrArg (S3View.mk view.pipeline) (Table.erase_of_lookup_none hl).symm
        | some mapping => rfl
      refine ⟨?_, fun pair object hl => ?_⟩
      · exact (congrArg S3View.keyMap hview) ▸ h.encoded.erase hc
      · exact (congrArg S3View.pipeline hview) ▸
          h.readable pair object (Table.lookup_erase_eq_some.mp hl).2

/-- **In a run of clear calls every reply is that of the map of pairs.** -/
theorem Holds.answers_history (h : view.Holds objects) (calls : List S3Call) :
    (∀ e ∈ view.history objects calls, e.1.Clear e.2.1) →
      ∀ e ∈ view.history objects calls, e.1.Answers e.2.1 e.2.2 := by
  induction calls generalizing view objects with
  | nil => exact fun _ e he => absurd he List.not_mem_nil
  | cons call calls ih =>
      intro hclear e he
      have hc : objects.Clear call := hclear _ List.mem_cons_self
      rcases List.mem_cons.mp he with rfl | he
      · exact h.answers hc
      · exact ih (h.step hc) (fun e he => hclear e (List.mem_cons_of_mem _ he)) e he

/-- **From an empty view, as long as the calls are clear, the view is a map of pairs.** -/
theorem history_answers {calls : List S3Call}
    (h : ∀ e ∈ (new B).history ∅ calls, e.1.Clear e.2.1) :
    ∀ e ∈ (new B).history ∅ calls, e.1.Answers e.2.1 e.2.2 := holds_new.answers_history calls h

/-! ### Buckets without a slash -/

theorem fullKey_injective {bucket bucket' key key' : Text} (hb : '/' ∉ bucket)
    (hb' : '/' ∉ bucket') (h : fullKey bucket key = fullKey bucket' key') :
    (bucket, key) = (bucket', key') := by
  have hstart : bucket ++ '/' :: key <+: bucket' ++ '/' :: key' :=
    ⟨[], (List.append_nil _).trans h⟩
  obtain ⟨rfl, -⟩ := (Paths.name_prefix hb hb' (.inr ⟨key', rfl⟩)).mp hstart
  have hkey : '/' :: key = '/' :: key' := List.append_cancel_left h
  rw [(List.cons.inj hkey).2]

/-- The pairs that are present have buckets without a slash. -/
def PlainPairs (objects : S3Objects) : Prop := ∀ pair ∈ objects, '/' ∉ pair.1

theorem PlainPairs.clear (h : PlainPairs objects) {call : S3Call} (hp : call.Plain) :
    objects.Clear call := by
  cases call with
  | put bucket _ _ _ | get bucket _ | head bucket _ | delete bucket _ =>
      exact fun pair hpair he => fullKey_injective (h pair hpair) hp he
  | list bucket _ =>
      intro pair hpair hle
      exact ((Paths.name_prefix hp (h pair hpair) (.inr ⟨pair.2, rfl⟩)).mp hle).1.symm

theorem PlainPairs.after (h : PlainPairs objects) {call : S3Call} (hp : call.Plain)
    (reply : S3Reply) : PlainPairs (objects.after call reply) := by
  cases call with
  | put bucket key data now =>
      cases reply with
      | put result =>
          cases result with
          | error e => exact h
          | ok id =>
              cases now with
              | none => exact h
              | some now =>
                  intro pair hpair
                  rcases (AList.mem_insert _).mp hpair with rfl | hpair
                  · exact hp
                  · exact h pair hpair
      | get _ | head _ | list _ | delete _ => exact h
  | delete bucket key => exact fun pair hpair => h pair (AList.mem_erase.mp hpair).2
  | get _ _ | head _ _ | list _ _ => exact h

theorem PlainPairs.history (h : PlainPairs objects) {calls : List S3Call}
    (hp : ∀ call ∈ calls, call.Plain) :
    ∀ e ∈ view.history objects calls, e.1.Clear e.2.1 := by
  induction calls generalizing view objects with
  | nil => exact fun e he => absurd he List.not_mem_nil
  | cons call calls ih =>
      obtain ⟨hcall, hrest⟩ := List.forall_mem_cons.mp hp
      intro e he
      rcases List.mem_cons.mp he with rfl | he
      · exact h.clear hcall
      · exact ih (h.after hcall _) hrest e he

/-- **Over buckets without a slash the view is a map of pairs.** -/
theorem history_answers_of_plain {calls : List S3Call} (h : ∀ call ∈ calls, call.Plain) :
    ∀ e ∈ (new B).history ∅ calls, e.1.Answers e.2.1 e.2.2 :=
  holds_new.answers_history calls
    (PlainPairs.history (fun _ hm => absurd hm (AList.notMem_empty _)) h)

end S3View

/-- A store that numbers what is written. -/
def listBackend : PipelineBackend where
  State := List Bytes
  init := []
  writeCapsule := fun s data => (.ok ⟨s.length⟩, s ++ [data])
  readCapsule := fun s id => (s[id.val]?).elim (.error (.msg "Capsule not found")) .ok
  read_written := by
    rintro s data id ⟨⟩
    simp
  read_kept := by
    intro s data id data' h
    cases hl : s[id.val]? with
    | none => rw [hl] at h; cases h
    | some found =>
        rw [hl] at h
        rw [List.getElem?_append_left (List.getElem?_eq_some_iff.mp hl).1, hl]
        exact h

namespace S3View

/-- In a run of clear calls: an object is put, listed, and deleted. -/
theorem history_answers_listed : List.Forall (fun e => e.1.Answers e.2.1 e.2.2)
    ((new listBackend).history ∅
      [.put ['b'] ['k'] [1] (some 0), .list ['b'] .asGiven, .delete ['b'] ['k']]) := by
  refine List.forall_iff_forall_mem.mpr (history_answers
    (PlainPairs.history (fun _ hm => absurd hm (AList.notMem_empty _)) ?_))
  have hb : '/' ∉ ['b'] := by decide
  simp only [List.forall_mem_cons]
  exact ⟨hb, hb, hb, fun _ hm => absurd hm List.not_mem_nil⟩

/-- **Two pairs may have one text**: after a put of one, the other is found. -/
theorem not_history_answers : ¬ ∀ (B : PipelineBackend) (calls : List S3Call),
    ∀ e ∈ (new B).history ∅ calls, e.1.Answers e.2.1 e.2.2 := by
  intro h
  have hget := h listBackend [.put ['a', '/', 'b'] ['c'] [1] (some 0), .get ['a'] ['b', '/', 'c']] _
    (List.mem_cons_of_mem _ List.mem_cons_self)
  exact absurd hget nofun

end S3View

end Space
