import Space.Security.AuditLog
import Space.Security.Gateway
import Space.Support.Linearizable
import Space.Views.Block
import Space.Views.S3

/-!
# Views — S3Server

The object view behind its HTTP server, with the zero-trust gateway in front.  Handlers run side by
side, and so does the task that refreshes the allow-list; what is done under one lock is one
operation (`S3Op`), and so is a call of the pipeline, which is a store of capsules as it is under
the block view.  The value of the identity header, what the workload socket brings, the time and
the identifier of a new capsule are arguments of a call.

The headers and the bodies of a response are kept as values; the routes, and how JSON, a date and
a UUID are spelled, are not modelled.
-/

namespace Space
open Support Prog

/-! ### The server -/

/-- The capsules, the key map and the allow-list. -/
structure S3Server where
  store : CapsuleStore
  keyMap : Table Text KeyMapping
  allowed : List Text

/-- `str::trim`. -/
def trim (text : Text) : Text :=
  ((text.dropWhile isWhitespace).reverse.dropWhile isWhitespace).reverse

/-- The identities of `SPACE_ALLOWED_SPIFFE_IDS`, as `init_gateway` reads them. -/
def allowedIds (env : Text) : List Text :=
  (env.splitOn ',').filterMap fun id => if trim id = [] then none else some (trim id)

/-- `S3Server::new`, over a new view. -/
def S3Server.new (store : CapsuleStore) (env : Text) : S3Server := ⟨store, ∅, allowedIds env⟩

/-- What is done under one lock, or by one call of the pipeline. -/
inductive S3Op where
  | permits (spiffe : Text)
  | updateAllowList (ids : List Text)
  | writeCapsule (id : CapsuleId) (data : Bytes)
  | readCapsule (id : CapsuleId)
  | insertMapping (key : Text) (mapping : KeyMapping)
  | mapping (key : Text)
  | mappings (start : Text) (ord : Order (Sigma fun _ : Text => KeyMapping))
  | removeMapping (key : Text)

def S3Op.Res : S3Op → Type
  | .permits _ => Bool
  | .updateAllowList _ => Unit
  | .writeCapsule _ _ => CapsuleId
  | .readCapsule _ => Bytes
  | .insertMapping _ _ => Unit
  | .mapping _ => KeyMapping
  | .mappings _ _ => List KeyMapping
  | .removeMapping _ => Unit

abbrev S3Sig : Signature := ⟨S3Op, S3Op.Res⟩

namespace S3Server

/-- What the operations do. -/
def exec : Handler S3Sig Error S3Server
  | .permits spiffe, s => (.ok (decide (Permits s.allowed spiffe)), s)
  | .updateAllowList ids, s => (.ok (), { s with allowed := ids })
  | .writeCapsule id data, s => (.ok id, { s with store := s.store.write id data })
  | .readCapsule id, s => (s.store.read id, s)
  | .insertMapping key mapping, s => (.ok (), { s with keyMap := s.keyMap.insert key mapping })
  | .mapping key, s =>
    match s.keyMap.lookup key with
    | some mapping => (.ok mapping, s)
    | none => (.error (keyNotFound key), s)
  | .mappings start ord, s =>
    (.ok (((ord.reorder s.keyMap.entries).filter fun e => start.isPrefixOf e.1).map Sigma.snd), s)
  | .removeMapping key, s =>
    match s.keyMap.lookup key with
    | some _ => (.ok (), { s with keyMap := s.keyMap.erase key })
    | none => (.error (keyNotFound key), s)

/-- The identifier of a new capsule was never given before. -/
def Fresh : S3Op → S3Server → Prop
  | .writeCapsule id _, s => id ∉ s.store.used
  | _, _ => True

/-- A write of a capsule may fail, and a read of one that is not there. -/
def Fails : S3Op → S3Server → Prop
  | .writeCapsule _ _, _ => True
  | .readCapsule id, s => s.store.capsules.lookup id = none
  | _, _ => False

/-- What the operations may do; one that fails leaves all as it is. -/
def Does : Moves S3Sig Error S3Server := fun o s r s' =>
  Fresh o s ∧ exec o s = (r, s') ∨ Fails o s ∧ (∃ e, r = .error e) ∧ s' = s

end S3Server

abbrev S3Prog := Prog S3Sig Error

namespace S3Prog

def permits (spiffe : Text) : S3Prog Bool := perform (S := S3Sig) (.permits spiffe)

def updateAllowList (ids : List Text) : S3Prog Unit :=
  perform (S := S3Sig) (.updateAllowList ids)

def writeCapsule (id : CapsuleId) (data : Bytes) : S3Prog CapsuleId :=
  perform (S := S3Sig) (.writeCapsule id data)

def readCapsule (id : CapsuleId) : S3Prog Bytes := perform (S := S3Sig) (.readCapsule id)

def insertMapping (key : Text) (mapping : KeyMapping) : S3Prog Unit :=
  perform (S := S3Sig) (.insertMapping key mapping)

def mapping (key : Text) : S3Prog KeyMapping := perform (S := S3Sig) (.mapping key)

def mappings (start : Text) (ord : Order (Sigma fun _ : Text => KeyMapping)) :
    S3Prog (List KeyMapping) := perform (S := S3Sig) (.mappings start ord)

def removeMapping (key : Text) : S3Prog Unit := perform (S := S3Sig) (.removeMapping key)

/-! ### The view -/

/-- `S3View::put_object`; the clock is read after the capsule is written. -/
def putObject (bucket key : Text) (data : Bytes) (id : CapsuleId) (now : Option Nat) :
    S3Prog CapsuleId := do
  let capsuleId ← writeCapsule id data
  match now with
  | none => .fail clockError
  | some createdAt =>
    insertMapping (fullKey bucket key)
      ⟨fullKey bucket key, capsuleId, data.length, createdAt, detectContentType key⟩
    return capsuleId

def getObject (bucket key : Text) : S3Prog Bytes := do
  let mapping ← mapping (fullKey bucket key)
  readCapsule mapping.capsuleId

def headObject (bucket key : Text) : S3Prog KeyMapping := mapping (fullKey bucket key)

def listObjects (bucket : Text) (ord : Order (Sigma fun _ : Text => KeyMapping)) :
    S3Prog (List KeyMapping) := mappings (fullKey bucket []) ord

def deleteObject (bucket key : Text) : S3Prog Unit := removeMapping (fullKey bucket key)

end S3Prog

/-! ### The handlers -/

inductive HttpHeader where
  | etag (id : CapsuleId)
  | contentType (value : Text)
  | contentLength (size : Nat)
  | lastModified (timestamp : Nat)
  deriving DecidableEq, Repr

structure ObjectMetadata where
  key : Text
  size : Nat
  lastModified : Nat
  contentType : Text
  etag : CapsuleId
  deriving DecidableEq, Repr

structure ListResponse where
  name : Text
  contents : List ObjectMetadata
  deriving DecidableEq, Repr

inductive HttpBody where
  | empty
  | text (message : String)
  | bytes (data : Bytes)
  | listing (response : ListResponse)
  | health
  deriving DecidableEq, Repr

structure HttpResponse where
  status : Nat
  headers : List HttpHeader
  body : HttpBody
  deriving DecidableEq, Repr

namespace HttpResponse

/-- An error as a response. -/
def failed (status : Nat) (e : Error) : HttpResponse := ⟨status, [], .text e.message⟩

def rejected (rejection : MtlsRejection) : HttpResponse :=
  ⟨rejection.status, [], .text rejection.message⟩

end HttpResponse

/-- What a listing shows of an object. -/
def KeyMapping.metadata (m : KeyMapping) : ObjectMetadata :=
  ⟨m.key, m.size, m.createdAt, m.contentType, m.capsuleId⟩

/-- A request, as its handler gets it. -/
inductive HttpRequest where
  | putObject (bucket key : Text) (data : Bytes) (id : CapsuleId) (now : Option Nat)
  | getObject (bucket key : Text)
  | headObject (bucket key : Text)
  | listObjects (bucket : Text) (ord : Order (Sigma fun _ : Text => KeyMapping))
  | deleteObject (bucket key : Text)
  | healthCheck

/-- The handlers. -/
def HttpRequest.handler : HttpRequest → S3Prog HttpResponse
  | putObject bucket key data id now => do
    match ← (S3Prog.putObject bucket key data id now).attempt with
    | .ok capsuleId => return ⟨200, [.etag capsuleId], .empty⟩
    | .error e => return .failed 500 e
  | getObject bucket key => do
    match ← (S3Prog.getObject bucket key).attempt with
    | .ok data =>
      -- the metadata is looked up once more, for its content type
      match ← (S3Prog.headObject bucket key).attempt with
      | .ok mapping => return ⟨200, [.contentType mapping.contentType], .bytes data⟩
      | .error _ => return ⟨200, [.contentType "application/octet-stream".toList], .bytes data⟩
    | .error e => return .failed 404 e
  | headObject bucket key => do
    match ← (S3Prog.headObject bucket key).attempt with
    | .ok m => return ⟨200, [.contentLength m.size, .contentType m.contentType, .etag m.capsuleId,
        .lastModified m.createdAt], .empty⟩
    | .error e => return .failed 404 e
  | listObjects bucket ord => do
    match ← (S3Prog.listObjects bucket ord).attempt with
    | .ok mappings =>
      return ⟨200, [], .listing ⟨bucket, mappings.map KeyMapping.metadata⟩⟩
    | .error e => return .failed 500 e
  | deleteObject bucket key => do
    match ← (S3Prog.deleteObject bucket key).attempt with
    | .ok _ => return ⟨204, [], .empty⟩
    | .error e => return .failed 404 e
  | healthCheck => return ⟨200, [], .health⟩

/-- `MtlsLayer::authorize`. -/
def authorize (header : Option Bytes) : S3Prog (Except MtlsRejection Text) :=
  match spiffeOf header with
  | .error rejection => return .error rejection
  | .ok spiffe => do
    if ← S3Prog.permits spiffe then return .ok spiffe
    else return .error (.unauthorized spiffe)

/-- `enforce_mtls`. -/
def enforceMtls (header : Option Bytes) (request : HttpRequest) : S3Prog HttpResponse := do
  match ← authorize header with
  | .ok _ => request.handler
  | .error rejection => return .rejected rejection

/-- One turn of the refreshing task, by what was fetched. -/
def refreshAllowed (fetched : Except Error (List Text)) : S3Prog Unit :=
  match fetched with
  | .ok ids => if ids = [] then .ret () else S3Prog.updateAllowList ids
  | .error _ => .ret ()

/-- What runs side by side: requests, with the value of the identity header if there is one, and
turns of the refreshing task, with what its socket brings. -/
inductive S3Task where
  | request (header : Option Bytes) (r : HttpRequest)
  | refresh (endpoint : String) (socket : Except Error (List (Except Error Frame)))

/-- What comes of it. -/
inductive S3Outcome where
  | response (r : HttpResponse)
  | refreshed
  deriving DecidableEq, Repr

def S3Task.program (parse : Text → Except Error (List Text)) : S3Task → S3Prog S3Outcome
  | request header r => do
    let response ← enforceMtls header r
    return .response response
  | refresh endpoint socket => do
    refreshAllowed (fetchAllowed parse endpoint socket)
    return .refreshed

end Space
