import Space.Common.Types

/-!
# Common — Error

The errors of the code: `anyhow` messages, the error enumerations of the compression and
encryption crates, and the pipeline's wrappers around them.  `Error.message` is the text the
source displays.
-/

namespace Space

/-- The errors of the compression routines. -/
inductive CompressionError where
  | invalidPolicy (reason : String)
  | io (algorithm source : String)
  | codec (algorithm message : String)
  | integrityFailure (algorithm : String)
  deriving DecidableEq, Repr

def CompressionError.message : CompressionError → String
  | .invalidPolicy reason => "Invalid compression policy: " ++ reason
  | .io algorithm source => "IO error while using " ++ algorithm ++ ": " ++ source
  | .codec algorithm message => "Codec error in " ++ algorithm ++ ": " ++ message
  | .integrityFailure algorithm => "Integrity check failed for " ++ algorithm

/-- The errors of the encryption routines. -/
inductive EncryptionError where
  | keyNotFound (version : UInt32)
  | invalidKeyLength (expected actual : Nat)
  | keyRotationInProgress
  | invalidCiphertextLength (n : Nat)
  | integrityFailure
  | missingIntegrityTag
  | missingMetadata
  | corruptedMetadata (reason : String)
  | invalidConfiguration (reason : String)
  deriving DecidableEq, Repr

def EncryptionError.message : EncryptionError → String
  | .keyNotFound version => "Key not found: version " ++ toString version
  | .invalidKeyLength expected actual =>
      "Invalid key length: expected " ++ toString expected ++ ", got " ++ toString actual
  | .keyRotationInProgress => "Key rotation in progress"
  | .invalidCiphertextLength n => "Invalid ciphertext length: " ++ toString n
  | .integrityFailure => "Integrity verification failed: MAC mismatch"
  | .missingIntegrityTag => "Missing integrity tag"
  | .missingMetadata => "Missing encryption metadata"
  | .corruptedMetadata reason => "Corrupted metadata: " ++ reason
  | .invalidConfiguration reason => "Invalid configuration: " ++ reason

/-- An error of the code, with what it wraps. -/
inductive Error where
  | msg (text : String)
  | comp (source : CompressionError)
  | enc (source : EncryptionError)
  | context (text : String) (source : Error)
  | compression (segmentIndex : Nat) (source : CompressionError)
  | encryption (source : EncryptionError)
  | registry (operation : String) (source : Error)
  | nvram (operation : String) (source : Error)
  deriving DecidableEq, Repr

namespace Error

def message : Error → String
  | .msg text => text
  | .comp source => source.message
  | .enc source => source.message
  | .context text _ => text
  | .compression i source =>
      "Compression failed for segment " ++ toString i ++ ": " ++ source.message
  | .encryption source => "Encryption failure: " ++ source.message
  | .registry operation source =>
      "Registry operation `" ++ operation ++ "` failed: " ++ source.message
  | .nvram operation source =>
      "NVRAM operation `" ++ operation ++ "` failed: " ++ source.message

/-- `err.downcast::<CompressionError>()`, which looks through added context. -/
def downcastCompression : Error → Option CompressionError
  | .comp source => some source
  | .context _ source => source.downcastCompression
  | _ => none

end Error

/-- `Debug` of a segment identifier. -/
def SegmentId.debug (id : SegmentId) : String := "SegmentId(" ++ toString id.val ++ ")"

/-- `map_compression_error`. -/
def mapCompressionError (segmentIndex : Nat) (err : Error) : Error :=
  match err.downcastCompression with
  | some source => .compression segmentIndex source
  | none => err

/-- `map_registry_error`. -/
def mapRegistryError (operation : String) (err : Error) : Error := .registry operation err

/-- `map_nvram_error`. -/
def mapNvramError (operation : String) (err : Error) : Error := .nvram operation err

end Space
