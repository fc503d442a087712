import Voxlib.Lib.CStr

/-!
# Base64 (vox_crypto.c)

The output buffer is the list of the bytes written so far; `none` is the
result -1. Lengths are `size_t` values.
-/

namespace Voxlib.Crypto
open CStr

/- base64_char_table (vox_crypto.c:792-809): '=' is -1, other characters outside
   the alphabet are -2. -/
def base64CharValue (c : UInt8) : ℤ :=
  if 65 ≤ c ∧ c ≤ 90 then c.toNat - 65
  else if 97 ≤ c ∧ c ≤ 122 then c.toNat - 97 + 26
  else if 48 ≤ c ∧ c ≤ 57 then c.toNat - 48 + 52
  else if c = 43 then 62
  else if c = 47 then 63
  else if c = 61 then -1
  else -2

def isBlank (c : UInt8) : Bool := c = 32 ∨ c = 10 ∨ c = 13 ∨ c = 9

/- The three bytes of a group of four values, each cut to 8 bits. -/
def firstByte (v1 v2 : ℕ) : UInt8 := ((v1 <<< 2) ||| (v2 >>> 4)).toUInt8
def secondByte (v2 v3 : ℕ) : UInt8 := (((v2 &&& 0xF) <<< 4) ||| (v3 >>> 2)).toUInt8
def thirdByte (v3 v4 : ℕ) : UInt8 := (((v3 &&& 0x3) <<< 6) ||| v4).toUInt8

def sextet (c : UInt8) : Option ℕ :=
  let v := base64CharValue c
  if v < 0 then none else some v.toNat

/- The loop over complete groups (vox_crypto.c:867-880): the characters that are
   left and the bytes written. -/
def decodeGroups : Bytes → Option (Bytes × Bytes)
  | a :: b :: c :: d :: rest => do
    let v1 ← sextet a
    let v2 ← sextet b
    let v3 ← sextet c
    let v4 ← sextet d
    let (left, out) ← decodeGroups rest
    return (left, firstByte v1 v2 :: secondByte v2 v3 :: thirdByte v3 v4 :: out)
  | left => some (left, [])

-- vox_base64_decode (vox_crypto.c:843-906)
def base64Decode (encoded : Bytes) (outputSize : ℕ) : Option Bytes :=
  if encoded.length = 0 then some []
  else
    let text := (encoded.reverse.dropWhile isBlank).reverse
    let len := text.length
    if len = 0 then some []
    else
      let padding := (if text[len - 1]? = some 61 then 1 else 0) +
        (if 1 < len ∧ text[len - 2]? = some 61 then 1 else 0)
      let outputLen := (len * 3 / 4 + 2 ^ 64 - padding) % 2 ^ 64
      if outputSize < outputLen then none
      else do
        let (left, out) ← decodeGroups (text.take (len - padding))
        if 0 < padding ∧ left.length + padding ≠ 0 then
          -- the rest is read up to `len`, padding characters included
          let tail := left ++ text.drop (len - padding)
          let v1 ← sextet (tail.headD 0)
          let v2 ← match tail[1]? with
            | some c => sextet c
            | none => none
          if padding = 1 ∧ 2 < tail.length then
            let v3 ← sextet (tail.getD 2 0)
            return out ++ [firstByte v1 v2, secondByte v2 v3]
          else return out ++ [firstByte v1 v2]
        else if left.length ≠ 0 then none
        else return out

example : base64Decode (lit "dXNlcjpwYXNz") 256 = some (lit "user:pass") := by decide

example : base64Decode (lit "YTpi\n") 256 = some (lit "a:b") := by decide

def base64Char (v : ℕ) : UInt8 :=
  if v < 26 then UInt8.ofNat (65 + v)
  else if v < 52 then UInt8.ofNat (97 + (v - 26))
  else if v < 62 then UInt8.ofNat (48 + (v - 52))
  else if v = 62 then 43
  else 47

/- The loop over the groups of three bytes and the rest (vox_crypto.c:759-785). -/
def encodeGroups : Bytes → Bytes
  | a :: b :: c :: rest =>
    let triple := a.toNat <<< 16 ||| b.toNat <<< 8 ||| c.toNat
    base64Char (triple >>> 18 &&& 0x3F) :: base64Char (triple >>> 12 &&& 0x3F) ::
      base64Char (triple >>> 6 &&& 0x3F) :: base64Char (triple &&& 0x3F) :: encodeGroups rest
  | [a, b] =>
    [base64Char (a.toNat >>> 2 &&& 0x3F),
      base64Char ((a.toNat &&& 0x3) <<< 4 ||| (b.toNat &&& 0xF0) >>> 4),
      base64Char ((b.toNat &&& 0xF) <<< 2), 61]
  | [a] => [base64Char (a.toNat >>> 2 &&& 0x3F), base64Char ((a.toNat &&& 0x3) <<< 4), 61, 61]
  | [] => []

-- vox_base64_encode (vox_crypto.c:751-789)
def base64Encode (data : Bytes) (outputSize : ℕ) : Option Bytes :=
  if outputSize < (data.length + 2) / 3 * 4 + 1 then none else some (encodeGroups data)

example : base64Encode (lit "Man") 64 = some (lit "TWFu") := by decide

end Voxlib.Crypto
