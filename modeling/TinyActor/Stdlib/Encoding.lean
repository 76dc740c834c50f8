/-
Base64 and percent coding (`lib/encoding.c`, `lib/encoding.ta`).

The encoders have no way to fail.  The decoders of the C module answer -1 for a malformed
text, here `none`; the layer above makes a result of it.
-/
import TinyActor.Stdlib.Str

namespace TinyActor.Stdlib.Encoding

/-- `(char)n`. -/
def byte (n : Nat) : UInt8 := UInt8.ofNat n

/-! ### Base64 -/

/-- `b64_index`. -/
def b64Index (c : UInt8) (alpha : Bytes) : Option Nat := if c = 0 then none else alpha.idxOf? c

/-- `'='`. -/
def padChar : UInt8 := 61

/-- Sixty-four characters, each found where it stands. -/
structure Alphabet where
  chars : Bytes
  length_eq : chars.length = 64
  index_get : ∀ n < 64, b64Index (chars.getD n 0) chars = some n
  no_pad : padChar ∉ chars
  no_zero : 0 ∉ chars

/-- `trip`: three bytes as one number. -/
def trip (a b c : UInt8) : Nat := (a.toNat <<< 16) ||| (b.toNat <<< 8) ||| c.toNat

/-- `b64_encode_impl`, three bytes at a time. -/
def b64Encode (alpha : Bytes) : Bytes → Bytes
  | [] => []
  | [a] =>
      let t := trip a 0 0
      [alpha.getD (t >>> 18 &&& 63) 0, alpha.getD (t >>> 12 &&& 63) 0, padChar, padChar]
  | [a, b] =>
      let t := trip a b 0
      [alpha.getD (t >>> 18 &&& 63) 0, alpha.getD (t >>> 12 &&& 63) 0,
        alpha.getD (t >>> 6 &&& 63) 0, padChar]
  | a :: b :: c :: rest =>
      let t := trip a b c
      alpha.getD (t >>> 18 &&& 63) 0 :: alpha.getD (t >>> 12 &&& 63) 0 ::
        alpha.getD (t >>> 6 &&& 63) 0 :: alpha.getD (t &&& 63) 0 :: b64Encode alpha rest

/-- The first loop of `b64_decode_impl`: what is left without padding, and how much there
was. -/
def stripPad (s : Bytes) : Bytes × Nat :=
  if s.getLast? = some padChar then
    if s.dropLast.getLast? = some padChar then (s.dropLast.dropLast, 2) else (s.dropLast, 1)
  else (s, 0)

/-- The second loop: `bits` bits are in the accumulator, never more than eighteen. -/
def b64Loop (alpha : Bytes) : Bytes → Nat → Nat → Option Bytes
  | [], acc, bits =>
      if bits = 12 then some [byte (acc >>> 4)]
      else if bits = 18 then some [byte (acc >>> 10), byte (acc >>> 2)]
      else some []
  | c :: cs, acc, bits =>
      match b64Index c alpha with
      | none => none
      | some v =>
          let acc' := acc <<< 6 ||| v
          if bits + 6 = 24 then
            (b64Loop alpha cs 0 0).map fun out =>
              byte (acc' >>> 16) :: byte (acc' >>> 8) :: byte acc' :: out
          else b64Loop alpha cs acc' (bits + 6)

/-- `b64_decode_impl`. -/
def b64Decode (alpha s : Bytes) : Option Bytes :=
  let (body, pad) := stripPad s
  if body.getLast? = some padChar then none
  else if body.length % 4 = 1 then none
  else if pad > 0 ∧ (body.length + pad) % 4 ≠ 0 then none
  else b64Loop alpha body 0 0

/-- `B64_STD`. -/
def std : Alphabet where
  chars := ascii "ABCDEFGHIJKLMNOPQRSTUVWXYZabcdefghijklmnopqrstuvwxyz0123456789+/"
  length_eq := by decide +kernel
  index_get := by decide +kernel
  no_pad := by decide +kernel
  no_zero := by decide +kernel

/-- `B64_URL`. -/
def url : Alphabet where
  chars := ascii "ABCDEFGHIJKLMNOPQRSTUVWXYZabcdefghijklmnopqrstuvwxyz0123456789-_"
  length_eq := by decide +kernel
  index_get := by decide +kernel
  no_pad := by decide +kernel
  no_zero := by decide +kernel

/-- A sentinel made a result. -/
def lift (msg : String) : Option Bytes → Except Bytes Bytes
  | none => .error (ascii msg)
  | some v => .ok v

def encode (s : Bytes) : Bytes := b64Encode std.chars s

def decode (s : Bytes) : Except Bytes Bytes := lift "invalid base64" (b64Decode std.chars s)

def urlEncode (s : Bytes) : Bytes := b64Encode url.chars s

def urlDecode (s : Bytes) : Except Bytes Bytes := lift "invalid base64url" (b64Decode url.chars s)

/-! ### Percent coding -/

/-- `hex_index`. -/
def hexIndex (c : UInt8) : Option Nat :=
  if 48 ≤ c ∧ c ≤ 57 then some (c.toNat - 48)
  else if 97 ≤ c ∧ c ≤ 102 then some (c.toNat - 97 + 10)
  else if 65 ≤ c ∧ c ≤ 70 then some (c.toNat - 65 + 10)
  else none

/-- `is_unreserved`. -/
def isUnreserved (c : UInt8) : Bool :=
  (65 ≤ c && c ≤ 90) || (97 ≤ c && c ≤ 122) || (48 ≤ c && c ≤ 57) || c == 45 || c == 95 ||
    c == 46 || c == 126

/-- `digits` of `enc_percent_encode`. -/
def upperHex (n : Nat) : UInt8 := (ascii "0123456789ABCDEF").getD n 0

/-- `enc_percent_encode`, one byte. -/
def pctByte (c : UInt8) : Bytes :=
  if isUnreserved c then [c] else [37, upperHex (c.toNat >>> 4), upperHex (c.toNat &&& 15)]

def percentEncode (s : Bytes) : Bytes := s.flatMap pctByte

/-- `enc_percent_decode`. -/
def pctDecode : Bytes → Option Bytes
  | [] => some []
  | c :: rest =>
      if c ≠ 37 then (pctDecode rest).map (c :: ·)
      else
        match rest with
        | h :: l :: rest' =>
            match hexIndex h, hexIndex l with
            | some hi, some lo => (pctDecode rest').map (byte (hi <<< 4 ||| lo) :: ·)
            | _, _ => none
        | _ => none

def percentDecode (s : Bytes) : Except Bytes Bytes := lift "invalid percent" (pctDecode s)

end TinyActor.Stdlib.Encoding
