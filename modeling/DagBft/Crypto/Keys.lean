/-
  The keys of `crypto/src/lib.rs` and their text in configuration files and on the wire.

  The `base64` crate is a parameter. `decode_base64` takes the first 32 (64) bytes of what it
  decodes as `bytes[..32]`, which panics on a shorter vector and cuts a longer one; the length
  error of the conversion that follows is never reached. `keyText_iff` says for which texts
  the decoders do what they should.
-/
import DagBft.Crypto
import DagBft.Lib.Base64
import Mathlib.Data.Set.Defs

namespace DagBft.Crypto

abbrev Text := List Char

/-- `base64::DecodeError`. -/
inductive DecodeError where
  | invalidByte (offset : ℕ) (byte : UInt8)
  | invalidLength
  | invalidLastSymbol (offset : ℕ) (byte : UInt8)
  deriving DecidableEq

/-- The `base64` crate: what it encodes it decodes again. -/
structure Base64Crate where
  encode : Bytes → Text
  decode : Text → Except DecodeError Bytes
  /-- The text of an error. -/
  display : DecodeError → Text
  decode_encode : ∀ bytes, decode (encode bytes) = .ok bytes

/-- A key of `n` bytes. -/
structure Key (n : ℕ) where
  bytes : Bytes
  size : bytes.length = n
  deriving DecidableEq

abbrev PublicKey := Key 32

abbrev SecretKey := Key 64

/-- `bytes[..n]`; `none` is the panic on a shorter vector. -/
def sliceTo (n : ℕ) (bytes : Bytes) : Option Bytes :=
  if n ≤ bytes.length then some (bytes.take n) else none

/-- `try_into` for an array of `n` bytes. -/
def tryInto (n : ℕ) (bytes : Bytes) : Option (Key n) :=
  if h : bytes.length = n then some ⟨bytes, h⟩ else none

def encodeKey (base64 : Base64Crate) {n : ℕ} (key : Key n) : Text := base64.encode key.bytes

/-- The result is `none` where the source panics. -/
def decodeKey (base64 : Base64Crate) (n : ℕ) (s : Text) : Option (Except DecodeError (Key n)) :=
  match base64.decode s with
  | .error e => some (.error e)
  | .ok bytes => do
      let slice ← sliceTo n bytes
      match tryInto n slice with
      | none => some (.error .invalidLength)
      | some array => some (.ok array)

/-- Both `Deserialize` impls, on what `String::deserialize` gives. -/
def deserializeKey (base64 : Base64Crate) (n : ℕ) (s : Except Text Text) :
    Option (Except Text (Key n)) :=
  match s with
  | .error e => some (.error e)
  | .ok s => (decodeKey base64 n s).map fun value => value.mapError base64.display

def PublicKey.encodeBase64 (base64 : Base64Crate) (key : PublicKey) : Text := encodeKey base64 key

def PublicKey.decodeBase64 (base64 : Base64Crate) (s : Text) :
    Option (Except DecodeError PublicKey) :=
  decodeKey base64 32 s

def SecretKey.encodeBase64 (base64 : Base64Crate) (key : SecretKey) : Text := encodeKey base64 key

def SecretKey.decodeBase64 (base64 : Base64Crate) (s : Text) :
    Option (Except DecodeError SecretKey) :=
  decodeKey base64 64 s

variable {base64 : Base64Crate} {n : ℕ}

/-- What `decodeKey` does, by the length of the decoded bytes. -/
theorem decodeKey_ok {s : Text} {bytes : Bytes} (h : base64.decode s = .ok bytes) :
    decodeKey base64 n s =
      if h : n ≤ bytes.length then some (.ok ⟨bytes.take n, by simp [h]⟩) else none := by
  simp only [decodeKey, h, sliceTo]
  by_cases hn : n ≤ bytes.length
  · simp [hn, tryInto]
  · simp [hn]

theorem decodeKey_error {s : Text} {e : DecodeError} (h : base64.decode s = .error e) :
    decodeKey base64 n s = some (.error e) := by
  simp only [decodeKey, h]

theorem decodeKey_exact {s : Text} {key : Key n} (h : base64.decode s = .ok key.bytes) :
    decodeKey base64 n s = some (.ok key) := by
  obtain ⟨bytes, rfl⟩ := key
  rw [decodeKey_ok h]
  simp

theorem decodeKey_encodeKey (key : Key n) :
    decodeKey base64 n (encodeKey base64 key) = some (.ok key) :=
  decodeKey_exact (base64.decode_encode _)

/-- A key goes over the wire unchanged. -/
theorem deserializeKey_encodeKey (key : Key n) :
    deserializeKey base64 n (.ok (encodeKey base64 key)) = some (.ok key) := by
  simp only [deserializeKey, decodeKey_encodeKey, Option.map_some]
  rfl

/-- `s` decodes to `n` bytes. -/
def Sized (base64 : Base64Crate) (n : ℕ) (s : Text) : Prop :=
  ∃ bytes, base64.decode s = .ok bytes ∧ bytes.length = n

/-- A decoder of keys does its work on `texts`: keys come back, a text that is not of a key's
size is an error (and no panic), and different bytes are different keys. -/
structure Faithful (base64 : Base64Crate) (n : ℕ) (encode : Key n → Text)
    (decode : Text → Option (Except DecodeError (Key n))) (texts : Set Text) : Prop where
  round_trip : ∀ key, decode (encode key) = some (.ok key)
  rejects : ∀ s ∈ texts, ¬ Sized base64 n s → ∃ e, decode s = some (.error e)
  injective : ∀ s ∈ texts, ∀ t ∈ texts, ∀ bytes bytes' key,
    base64.decode s = .ok bytes → base64.decode t = .ok bytes' →
      decode s = some (.ok key) → decode t = some (.ok key) → bytes = bytes'

/-- Whatever `texts` decode to has `n` bytes. -/
def AllSized (base64 : Base64Crate) (n : ℕ) (texts : Set Text) : Prop :=
  ∀ s ∈ texts, ∀ bytes, base64.decode s = .ok bytes → bytes.length = n

/-- Bytes of another length are never an error. -/
theorem decodeKey_ne_error {s : Text} {bytes : Bytes} (h : base64.decode s = .ok bytes)
    (e : DecodeError) : decodeKey base64 n s ≠ some (.error e) := by
  rw [decodeKey_ok h]
  split <;> simp

theorem decodeKey_bytes {s : Text} {bytes : Bytes} {key : Key n}
    (h : base64.decode s = .ok bytes) (hlen : bytes.length = n)
    (hkey : decodeKey base64 n s = some (.ok key)) : key.bytes = bytes := by
  have hexact : decodeKey base64 n s = some (.ok ⟨bytes, hlen⟩) := decodeKey_exact h
  rw [hexact] at hkey
  cases hkey
  rfl

theorem faithful_iff (texts : Set Text) :
    Faithful base64 n (encodeKey base64) (decodeKey base64 n) texts ↔
      AllSized base64 n texts := by
  constructor
  · intro hfaithful s hs bytes hbytes
    by_contra hlen
    have hsized : ¬ Sized base64 n s := by
      rintro ⟨bytes', hbytes', hlen'⟩
      rw [hbytes] at hbytes'
      cases hbytes'
      exact hlen hlen'
    obtain ⟨e, he⟩ := hfaithful.rejects s hs hsized
    exact decodeKey_ne_error hbytes e he
  · intro hall
    refine ⟨decodeKey_encodeKey, ?_, ?_⟩
    · intro s hs hsized
      cases hdecode : base64.decode s with
      | error e => exact ⟨e, decodeKey_error hdecode⟩
      | ok bytes => exact absurd ⟨bytes, hdecode, hall s hs bytes hdecode⟩ hsized
    · intro s hs t ht bytes bytes' key hbytes hbytes' hkey hkey'
      rw [← decodeKey_bytes hbytes (hall s hs _ hbytes) hkey,
        ← decodeKey_bytes hbytes' (hall t ht _ hbytes') hkey']

/-- The decoders do their work on exactly the sets of texts that hold no text of bytes of
another length. -/
theorem keyText_iff (base64 : Base64Crate) (texts : Set Text) :
    (Faithful base64 32 (PublicKey.encodeBase64 base64) (PublicKey.decodeBase64 base64) texts ↔
      AllSized base64 32 texts) ∧
    (Faithful base64 64 (SecretKey.encodeBase64 base64) (SecretKey.decodeBase64 base64) texts ↔
      AllSized base64 64 texts) :=
  ⟨faithful_iff texts, faithful_iff texts⟩

/-- The crate on texts with their padding. -/
def standard : Base64Crate where
  encode := Base64.encode
  decode s := match Base64.decode s with
    | some bytes => .ok bytes
    | none => .error .invalidLength
  display _ := []
  decode_encode bytes := by rw [Base64.decode_encode]

def sampleKey : Key 32 := ⟨List.replicate 32 7, by decide⟩

/-- The text of a key, and with it a text of three bytes. -/
theorem keyText_iff_sample :
    Faithful standard 32 (PublicKey.encodeBase64 standard) (PublicKey.decodeBase64 standard)
      {PublicKey.encodeBase64 standard sampleKey} ∧
    ¬ Faithful standard 32 (PublicKey.encodeBase64 standard) (PublicKey.decodeBase64 standard)
      {PublicKey.encodeBase64 standard sampleKey, ['A', 'A', 'A', 'A']} := by
  refine ⟨(keyText_iff standard _).1.mpr ?_, fun h => ?_⟩
  · intro s hs bytes hbytes
    rw [Set.mem_singleton_iff.mp hs] at hbytes
    have hdecode := standard.decode_encode sampleKey.bytes
    obtain rfl := Except.ok.inj (hdecode.symm.trans hbytes)
    exact sampleKey.size
  · have hall := (keyText_iff standard _).1.mp h
    exact absurd (hall _ (Or.inr rfl) [0, 0, 0] rfl) (by decide)

/-- `AAAA` is three bytes: taking 32 of them panics. -/
theorem not_keyText : ¬ ∀ (base64 : Base64Crate) (texts : Set Text),
    Faithful base64 32 (PublicKey.encodeBase64 base64) (PublicKey.decodeBase64 base64) texts ∧
    Faithful base64 64 (SecretKey.encodeBase64 base64) (SecretKey.decodeBase64 base64) texts := by
  intro h
  have hall := ((keyText_iff standard {['A', 'A', 'A', 'A']}).1.mp (h _ _).1)
  exact absurd (hall _ rfl [0, 0, 0] rfl) (by decide)

end DagBft.Crypto
