import Space.Common.Error

/-!
# Security — Gateway

The zero-trust gateway: the list of the identities that are let in, what the workload socket says of
it, and the identity that the header of a request names.  An empty list lets everybody in who names
an identity.
-/

namespace Space

/-- A frame of the workload socket. -/
inductive Frame where
  | text (payload : Text)
  | binary
  | close
  | other

/-- The loop of `fetch_allowed`: the first text decides, and an error or a close ends it. -/
def nextAllowed (parse : Text → Except Error (List Text)) :
    List (Except Error Frame) → Except Error (List Text)
  | [] => .ok []
  | .error _ :: _ => .ok []
  | .ok .close :: _ => .ok []
  | .ok .binary :: rest => nextAllowed parse rest
  | .ok .other :: rest => nextAllowed parse rest
  | .ok (.text payload) :: _ =>
    match parse payload with
    | .ok allowed => .ok allowed
    | .error e => .error (.context "invalid SPIFFE payload" e)

/-- `SpiffeWorkloadClient::fetch_allowed`, over a socket that may not open. -/
def fetchAllowed (parse : Text → Except Error (List Text)) (endpoint : String)
    (socket : Except Error (List (Except Error Frame))) : Except Error (List Text) :=
  match socket with
  | .error e => .error (.context ("failed to connect to " ++ endpoint) e)
  | .ok frames => nextAllowed parse frames

structure MtlsRejection where
  status : Nat
  message : String
  deriving DecidableEq, Repr

namespace MtlsRejection

def missingIdentity : MtlsRejection := ⟨401, "SPIFFE identity header missing"⟩

def invalidIdentity : MtlsRejection := ⟨400, "SPIFFE identity header malformed"⟩

def unauthorized (identity : Text) : MtlsRejection :=
  ⟨403, "SPIFFE identity " ++ String.ofList identity ++ " not authorized"⟩

end MtlsRejection

/-- `HeaderValue::to_str`: visible ASCII and tabs. -/
def headerText (value : Bytes) : Option Text :=
  if value.all fun b => (32 ≤ b && b < 127) || b == 9 then
    some (value.map fun b => Char.ofNat b.toNat)
  else none

/-- The identity a header names, or why it names none. -/
def spiffeOf (header : Option Bytes) : Except MtlsRejection Text :=
  match header with
  | none => .error .missingIdentity
  | some value =>
    match headerText value with
    | none => .error .invalidIdentity
    | some spiffe => .ok spiffe

/-- `allowed.is_empty() || allowed.contains(spiffe)`. -/
def Permits (allowed : List Text) (spiffe : Text) : Prop := allowed = [] ∨ spiffe ∈ allowed

instance (allowed : List Text) (spiffe : Text) : Decidable (Permits allowed spiffe) :=
  inferInstanceAs (Decidable (_ ∨ _))

end Space
