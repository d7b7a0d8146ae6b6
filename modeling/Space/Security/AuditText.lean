import Space.Codec.Stored
import Space.Security.AuditLog
import Space.Support.Paths
import Mathlib.Logic.Function.Basic

/-!
# Security — AuditText

The JSON text of a record, over whatever texts its events have.  The fields follow each other in one
order, each of them ended by a separator that it does not hold, so no text is the beginning of
another, and a text has its record.  A byte that stands for itself in a JSON string is written so;
any other, which no hash and no token has, as a character of its own.

* `AuditRecord.eq_of_toJson_prefix`: the texts of two records are no beginnings of each other.
* `EventTexts.codec`: so they are a codec.
-/

namespace Space
open Support

/-! ### Numbers and strings -/

/-- The decimal digits of a number. -/
def decimal (n : UInt64) : Text := Nat.toDigits 10 n.toNat

theorem decimal_injective : Function.Injective decimal := fun a b h => UInt64.toNat_inj.mp (by
  have hdigits := congrArg (fun digits => Nat.ofDigitChars 10 digits 0) h
  unfold decimal at hdigits
  simp only [Nat.ofDigitChars_ten_toDigits] at hdigits
  exact hdigits)

theorem notMem_decimal {n : UInt64} {c : Char} (h : c.isDigit = false) : c ∉ decimal n := by
  intro hm
  rw [Nat.isDigit_of_mem_toDigits (by decide) (by decide) hm] at h
  cases h

/-- The character of a byte in a string. -/
def jsonByte (b : UInt8) : Char :=
  if 32 ≤ b ∧ b < 127 ∧ b ≠ 34 ∧ b ≠ 92 then Char.ofNat b.toNat else Char.ofNat (256 + b.toNat)

theorem jsonByte_injective : Function.Injective jsonByte := by
  intro a b h
  have hmod : ∀ n : Fin 256, (jsonByte ⟨⟨n⟩⟩).toNat % 256 = n.val := by decide +kernel
  have e := congrArg (fun c => c.toNat % 256) h
  exact UInt8.toNat_inj.mp (((hmod a.toFin).symm.trans e).trans (hmod b.toFin))

/-- What is no character of a string. -/
theorem jsonByte_notMem (b : UInt8) : jsonByte b ∉ ['\"', '\n', '\r'] := by
  have h : ∀ n : Fin 256, jsonByte ⟨⟨n⟩⟩ ∉ ['\"', '\n', '\r'] := by decide +kernel
  exact h b.toFin

/-- The characters of a string. -/
def jsonString (bytes : Bytes) : Text := bytes.map jsonByte

theorem jsonString_injective : Function.Injective jsonString :=
  List.map_injective_iff.mpr jsonByte_injective

theorem quote_notMem_jsonString {bytes : Bytes} : '\"' ∉ jsonString bytes := by
  intro hm
  obtain ⟨b, -, hb⟩ := List.mem_map.mp hm
  exact jsonByte_notMem b (hb ▸ List.mem_cons_self)

theorem utf8Encode_injective : Function.Injective utf8Encode := fun a b h =>
  Option.some.inj ((utf8Decode_utf8Encode a).symm.trans
    ((congrArg utf8Decode h).trans (utf8Decode_utf8Encode b)))

/-- The text ends no line. -/
def OnLine (text : Text) : Prop := ∀ c ∈ text, c ≠ '\n' ∧ c ≠ '\r'

instance (text : Text) : Decidable (OnLine text) :=
  List.decidableBAll (fun c => c ≠ '\n' ∧ c ≠ '\r') text

theorem onLine_append {a b : Text} (ha : OnLine a) (hb : OnLine b) : OnLine (a ++ b) :=
  List.forall_mem_append.mpr ⟨ha, hb⟩

theorem onLine_cons {a : Text} {c : Char} (hc : c ≠ '\n' ∧ c ≠ '\r') (ha : OnLine a) :
    OnLine (c :: a) := List.forall_mem_cons.mpr ⟨hc, ha⟩

theorem onLine_decimal {n : UInt64} : OnLine (decimal n) := fun _ hm =>
  ⟨fun e => notMem_decimal rfl (e ▸ hm), fun e => notMem_decimal rfl (e ▸ hm)⟩

theorem onLine_jsonString {bytes : Bytes} : OnLine (jsonString bytes) := by
  intro c hm
  obtain ⟨b, -, rfl⟩ := List.mem_map.mp hm
  have hb := jsonByte_notMem b
  simp only [List.mem_cons, not_or] at hb
  exact ⟨hb.2.1, hb.2.2.1⟩

/-- What stands between the fields. -/
def literal (s : String) : Text := s.toList

/-- Two fields, each of them ended by the separator. -/
theorem field_prefix {a b r t : Text} {sep : Char} (ha : sep ∉ a) (hb : sep ∉ b)
    (h : a ++ sep :: r <+: b ++ sep :: t) : a = b ∧ r <+: t := by
  obtain ⟨e, htail⟩ := (Paths.name_prefix ha hb (.inr ⟨t, rfl⟩)).mp h
  exact ⟨e, (List.cons_prefix_cons.mp htail).2⟩

/-! ### Records -/

/-- Texts for the events, which read back where they are finite; no text is the beginning of
another. -/
structure EventTexts (Event : Type) where
  text : Event → Text
  Finite : Event → Prop
  inj : ∀ {a b}, Finite a → Finite b → text a = text b → a = b
  prefixFree : ∀ {a b}, text a <+: text b → text a = text b
  onLine : ∀ e, OnLine (text e)

def TsaProof.toJson (proof : TsaProof) : Text :=
  literal "\x7b\"authority\":\"" ++ (jsonString (utf8Encode proof.authority) ++ '\"' ::
    (literal ",\"timestamp\":" ++ (decimal proof.timestamp ++ ',' ::
      (literal "\"token\":\"" ++ (jsonString (utf8Encode proof.token) ++ '\"' :: ['\x7d'])))))

/-- The value of `tsa_proof`. -/
def proofToJson : Option TsaProof → Text
  | none => literal "null"
  | some proof => proof.toJson

theorem TsaProof.eq_of_toJson_prefix {p q : TsaProof} {r t : Text}
    (h : p.toJson ++ r <+: q.toJson ++ t) : p = q := by
  obtain ⟨a, n, k⟩ := p
  obtain ⟨a', n', k'⟩ := q
  simp only [toJson, List.append_assoc, List.cons_append, List.prefix_append_right_inj] at h
  obtain ⟨ha, h⟩ := field_prefix quote_notMem_jsonString quote_notMem_jsonString h
  simp only [List.prefix_append_right_inj] at h
  obtain ⟨hn, h⟩ := field_prefix (notMem_decimal rfl) (notMem_decimal rfl) h
  simp only [List.prefix_append_right_inj] at h
  obtain ⟨hk, -⟩ := field_prefix quote_notMem_jsonString quote_notMem_jsonString h
  rw [utf8Encode_injective (jsonString_injective ha), decimal_injective hn,
    utf8Encode_injective (jsonString_injective hk)]

theorem eq_of_proofToJson_prefix {p q : Option TsaProof} {r t : Text}
    (h : proofToJson p ++ r <+: proofToJson q ++ t) : p = q := by
  cases p with
  | none => cases q with
    | none => rfl
    | some q =>
        have hhead := (List.cons_prefix_cons.mp h).1
        exact absurd hhead (by decide)
  | some p => cases q with
    | none =>
        have hhead := (List.cons_prefix_cons.mp h).1
        exact absurd hhead (by decide)
    | some q => rw [TsaProof.eq_of_toJson_prefix h]

variable {Event : Type} (T : EventTexts Event)

/-- `serde_json::to_string`. -/
def AuditRecord.toJson (record : AuditRecord Event) : Text :=
  literal "\x7b\"event\":" ++ (T.text record.event ++
    (literal ",\"timestamp\":" ++ (decimal record.timestamp ++ ',' ::
      (literal "\"prev_hash\":\"" ++ (jsonString record.prevHash ++ '\"' ::
        (literal ",\"hash\":\"" ++ (jsonString record.hash ++ '\"' ::
          (literal ",\"tsa_proof\":" ++ (proofToJson record.tsaProof ++ ['\x7d'])))))))))

variable {T}

/-- Two event texts with something behind them. -/
theorem EventTexts.text_prefix {a b : Event} {r t : Text} (h : T.text a ++ r <+: T.text b ++ t) :
    T.text a = T.text b ∧ r <+: t := by
  have ha : T.text a <+: T.text b ++ t := (List.prefix_append _ _).trans h
  have e : T.text a = T.text b := by
    rcases List.prefix_or_prefix_of_prefix ha (List.prefix_append _ _) with hab | hba
    · exact T.prefixFree hab
    · exact (T.prefixFree hba).symm
  rw [e] at h
  exact ⟨e, (List.prefix_append_right_inj _).mp h⟩

/-- **No text is the beginning of another**: the text of the event, and all that follows it, are the
same. -/
theorem AuditRecord.eq_of_toJson_prefix {x y : AuditRecord Event} (h : x.toJson T <+: y.toJson T) :
    T.text x.event = T.text y.event ∧ x = { y with event := x.event } := by
  obtain ⟨e, n, p, k, proof⟩ := x
  obtain ⟨e', n', p', k', proof'⟩ := y
  simp only [toJson, List.prefix_append_right_inj] at h
  obtain ⟨he, h⟩ := EventTexts.text_prefix h
  simp only [List.prefix_append_right_inj] at h
  obtain ⟨hn, h⟩ := field_prefix (notMem_decimal rfl) (notMem_decimal rfl) h
  simp only [List.prefix_append_right_inj] at h
  obtain ⟨hp, h⟩ := field_prefix quote_notMem_jsonString quote_notMem_jsonString h
  simp only [List.prefix_append_right_inj] at h
  obtain ⟨hk, h⟩ := field_prefix quote_notMem_jsonString quote_notMem_jsonString h
  simp only [List.prefix_append_right_inj] at h
  refine ⟨he, ?_⟩
  rw [decimal_injective hn, jsonString_injective hp, jsonString_injective hk,
    eq_of_proofToJson_prefix h]

theorem AuditRecord.toJson_inj {x y : AuditRecord Event} (hx : T.Finite x.event)
    (hy : T.Finite y.event) (h : x.toJson T = y.toJson T) : x = y := by
  obtain ⟨he, e⟩ := eq_of_toJson_prefix (h ▸ List.prefix_rfl : x.toJson T <+: y.toJson T)
  rw [e, T.inj hx hy he]

theorem onLine_proofToJson (proof : Option TsaProof) : OnLine (proofToJson proof) := by
  cases proof with
  | none => exact (by decide : OnLine (literal "null"))
  | some proof =>
      unfold proofToJson TsaProof.toJson
      exact onLine_append (by decide) (onLine_append onLine_jsonString (onLine_cons (by decide)
        (onLine_append (by decide) (onLine_append onLine_decimal (onLine_cons (by decide)
          (onLine_append (by decide) (onLine_append onLine_jsonString (onLine_cons (by decide)
            (by decide)))))))))

theorem AuditRecord.onLine_toJson (record : AuditRecord Event) : OnLine (record.toJson T) := by
  unfold toJson
  exact onLine_append (by decide) (onLine_append (T.onLine _) (onLine_append (by decide)
    (onLine_append onLine_decimal (onLine_cons (by decide) (onLine_append (by decide)
      (onLine_append onLine_jsonString (onLine_cons (by decide) (onLine_append (by decide)
        (onLine_append onLine_jsonString (onLine_cons (by decide) (onLine_append (by decide)
          (onLine_append (onLine_proofToJson _) (by decide)))))))))))))

variable (T)

open Classical in
/-- The record of a text. -/
noncomputable def EventTexts.fromStr (text : Text) : Option (AuditRecord Event) :=
  if h : ∃ record : AuditRecord Event, T.Finite record.event ∧ record.toJson T = text then
    some h.choose
  else none

/-- **The texts are a codec.** -/
noncomputable def EventTexts.codec : AuditCodec Event where
  eventToString := T.text
  toString := AuditRecord.toJson T
  fromStr := T.fromStr
  Finite := T.Finite
  fromStr_toString := by
    intro record hf
    have h : ∃ other : AuditRecord Event, T.Finite other.event ∧
      other.toJson T = record.toJson T := ⟨record, hf, rfl⟩
    rw [EventTexts.fromStr, dif_pos h]
    exact congrArg some (AuditRecord.toJson_inj h.choose_spec.1 hf h.choose_spec.2)
  fromStr_prefix := by
    intro record text hp hne
    refine dif_neg ?_
    rintro ⟨other, -, rfl⟩
    obtain ⟨he, e⟩ := AuditRecord.eq_of_toJson_prefix hp
    refine hne ?_
    rw [e]
    unfold AuditRecord.toJson
    rw [he]
  head?_toString := fun _ => rfl
  oneLine := AuditRecord.onLine_toJson

/-! ### Heartbeats -/

/-- The text of a heartbeat. -/
def heartbeatJson : Text :=
  "\x7b\"event\":\"audit_heartbeat\",\"timestamp\":0,\"capsules\":0,\"segments\":0\x7d".toList

/-- One event, a heartbeat. -/
def beatTexts : EventTexts Unit where
  text := fun _ => heartbeatJson
  Finite := fun _ => True
  inj := fun _ _ _ => rfl
  prefixFree := fun _ => rfl
  onLine := fun _ => (by decide +kernel : OnLine heartbeatJson)

/-- `serde_json` at heartbeats. -/
noncomputable def heartbeats : AuditCodec Unit := beatTexts.codec

/-- BLAKE3, were a hash the first bytes of the data behind a one. -/
def Primitives.marking : Primitives :=
  { Primitives.stored with blake3 := fun data => .ofPrefix 32 (1 :: data) }

theorem Primitives.blake3_marking (data : Bytes) : marking.blake3 data ≠ zeroHash := by
  intro h
  have hhead : some (1 : UInt8) = some 0 := congrArg (fun b : Block 32 => b.1.head?) h
  exact absurd hhead (by decide)

end Space
