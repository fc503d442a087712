import Voxlib.Crypto.Hash

/-!
# HMAC (vox_crypto.c:619-740)

The hash of a long key is written to the key block, which is cleared before it is read.
-/

namespace Voxlib.Crypto
open CStr BlockHash List Option

variable {σ : Type}

/- Where `key` points: to the bytes of the caller, or to the first `len` bytes of key_block. -/
inductive KeyRef where
  | given (key : Bytes)
  | keyBlock (len : ℕ)

def KeyRef.read (keyBlock : Bytes) : KeyRef → Bytes
  | .given key => key
  | .keyBlock len => keyBlock.take len

def xorPad (keyBlock : Bytes) (pad : UInt8) : Bytes := keyBlock.map (· ^^^ pad)

def hmac (algo : HashAlgo σ) (size : ℕ) (key data : Bytes) : Option Bytes := do
  let key ←
    if 64 < key.length then (hashOnce algo key).map fun _ => KeyRef.keyBlock size
    else some (.given key)
  let keyBlock := List.replicate 64 0
  let keyBlock := writeAt keyBlock 0 (key.read keyBlock)
  let oKeyPad := xorPad keyBlock 0x5c
  let iKeyPad := xorPad keyBlock 0x36
  let ctx ← hashUpdate algo (hashInit algo) iKeyPad
  let ctx ← hashUpdate algo ctx data
  let digest ← hashFinal algo ctx
  let ctx ← hashUpdate algo (hashInit algo) oKeyPad
  let ctx ← hashUpdate algo ctx (digest.take size)
  hashFinal algo ctx

def hmacMd5 : Bytes → Bytes → Option Bytes := hmac md5Algo 16
def hmacSha1 : Bytes → Bytes → Option Bytes := hmac sha1Algo 20
def hmacSha256 : Bytes → Bytes → Option Bytes := hmac sha256Algo 32

/- The key with zeros behind it; the hash of a key that is too long. -/
def paddedKey (H : Bytes → Bytes) (key : Bytes) : Bytes :=
  let key := if 64 < key.length then H key else key
  key ++ List.replicate (64 - key.length) 0

def macOf (H : Bytes → Bytes) (key message : Bytes) : Bytes :=
  H (xorPad (paddedKey H key) 0x5c ++ H (xorPad (paddedKey H key) 0x36 ++ message))

variable {algo : HashAlgo σ} {size : ℕ}

variable {key : Bytes}

theorem paddedKey_length {H : Bytes → Bytes} (h : 64 < key.length → (H key).length ≤ 64) :
    (paddedKey H key).length = 64 := by
  rw [paddedKey, length_append, length_replicate]
  split
  · next hlong => exact Nat.add_sub_cancel' (h hlong)
  · omega

theorem xorPad_length (keyBlock : Bytes) (pad : UInt8) :
    (xorPad keyBlock pad).length = keyBlock.length := length_map _

theorem hashOnce_eq (hok : algo.Ok) (data : Bytes) (h : data.length < 2 ^ 32) :
    hashOnce algo data = some (algo.hash data) := by
  have hwide := hok.wide
  obtain ⟨ctx, hctx, hholds⟩ := hashUpdate_holds hok (hashInit_holds algo) (p := data)
    (by omega) (by
      rw [length_nil]
      omega)
  unfold hashOnce hashPieces
  rw [foldlM_cons, hctx]
  exact hashFinal_holds hok hholds

theorem pad_then (hok : algo.Ok) {pad : Bytes} (data : Bytes) (hpad : pad.length = 64)
    (hdata : data.length < 2 ^ 32) : ∃ one two, hashUpdate algo (hashInit algo) pad = some one ∧
      hashUpdate algo one data = some two ∧
      hashFinal algo two = some (algo.hash (pad ++ data)) := by
  have hwide := hok.wide
  obtain ⟨one, hone, hfirst⟩ := hashUpdate_holds hok (hashInit_holds algo) (p := pad)
    (by omega) (by
      rw [length_nil, hpad]
      omega)
  rw [nil_append] at hfirst
  obtain ⟨two, htwo, hsecond⟩ := hashUpdate_holds hok hfirst (p := data) (by omega) (by
    rw [hpad]
    omega)
  exact ⟨one, two, hone, htwo, hashFinal_holds hok hsecond⟩

theorem hmac_block (hok : algo.Ok) (hsize : ∀ s, (algo.digest s).length = size)
    (hsmall : size < 2 ^ 32) {keyBlock data : Bytes} (hkey : keyBlock.length = 64)
    (hdata : data.length < 2 ^ 32) : (do
      let ctx ← hashUpdate algo (hashInit algo) (xorPad keyBlock 0x36)
      let ctx ← hashUpdate algo ctx data
      let digest ← hashFinal algo ctx
      let ctx ← hashUpdate algo (hashInit algo) (xorPad keyBlock 0x5c)
      let ctx ← hashUpdate algo ctx (digest.take size)
      hashFinal algo ctx) =
    some (algo.hash (xorPad keyBlock 0x5c ++ algo.hash (xorPad keyBlock 0x36 ++ data))) := by
  have hpad (b : UInt8) : (xorPad keyBlock b).length = 64 := by rw [xorPad_length, hkey]
  have hlen (m : Bytes) : (algo.hash m).length = size := hsize _
  obtain ⟨one, two, hone, htwo, hinner⟩ := pad_then hok data (hpad 0x36) hdata
  obtain ⟨three, four, hthree, hfour, houter⟩ := pad_then hok
    (algo.hash (xorPad keyBlock 0x36 ++ data)) (hpad 0x5c) (by rw [hlen]; omega)
  have htake : (algo.hash (xorPad keyBlock 0x36 ++ data)).take size =
      algo.hash (xorPad keyBlock 0x36 ++ data) := take_of_length_le (hlen _).le
  simp only [hone, htwo, hinner, hthree, htake, hfour, houter, bind_eq_bind,
    bind_some]

theorem keyBlock_given (h : key.length ≤ 64) (H : Bytes → Bytes) :
    writeAt (List.replicate 64 0) 0 key = paddedKey H key := by
  rw [writeAt, paddedKey, if_neg (Nat.not_lt.mpr h), take_zero, nil_append, Nat.zero_add,
    drop_replicate]

theorem hmac_short (hok : algo.Ok) (hsize : ∀ s, (algo.digest s).length = size)
    (hsmall : size < 2 ^ 32) {data : Bytes} (hkey : key.length ≤ 64)
    (hdata : data.length < 2 ^ 32) : hmac algo size key data = some (macOf algo.hash key data) := by
  unfold hmac
  rw [if_neg (Nat.not_lt.mpr hkey)]
  simp only [bind_eq_bind, bind_some, KeyRef.read, keyBlock_given hkey algo.hash]
  exact hmac_block hok hsize hsmall
    (paddedKey_length fun hlong => absurd hkey (Nat.not_le.mpr hlong)) hdata

theorem hmac_long (hok : algo.Ok) (hsize : ∀ s, (algo.digest s).length = size) (hsmall : size ≤ 64)
    {data : Bytes} (hlong : 64 < key.length) (hkey : key.length < 2 ^ 32)
    (hdata : data.length < 2 ^ 32) : hmac algo size key data = some (macOf algo.hash [] data) := by
  have hcleared : writeAt (List.replicate 64 0) 0 ((List.replicate 64 (0 : UInt8)).take size) =
      paddedKey algo.hash [] := by
    have hread : (List.replicate 64 (0 : UInt8)).take size = List.replicate size 0 := by
      rw [take_replicate, Nat.min_eq_left hsmall]
    rw [hread, ← keyBlock_given (Nat.zero_le _), writeAt, writeAt, take_zero, nil_append,
      length_replicate, Nat.zero_add, drop_replicate, replicate_append_replicate,
      Nat.add_sub_cancel' hsmall]
    rfl
  unfold hmac
  rw [if_pos hlong, hashOnce_eq hok key hkey]
  simp only [map_some, bind_eq_bind, bind_some, KeyRef.read, hcleared]
  exact hmac_block hok hsize (by omega)
    (paddedKey_length fun h => absurd h (Nat.not_lt_zero _)) hdata

theorem beBytes_length (x : Word) : (beBytes x).length = 4 := rfl

theorem leBytes_length (x : Word) : (leBytes x).length = 4 := by
  rw [leBytes, length_reverse]
  rfl

theorem md5Digest_length (s : Md5State) : (md5Algo.digest s).length = 16 := by
  simp [md5Algo, leBytes_length]

theorem sha1Digest_length (s : Sha1State) : (sha1Algo.digest s).length = 20 := by
  simp [sha1Algo, beBytes_length]

theorem sha256Digest_length (s : Sha256State) : (sha256Algo.digest s).length = 32 := by
  simp [sha256Algo, beBytes_length]

/-- The three functions give the HMAC of their hash for keys of at most 64 bytes; every longer key
gives what the empty key gives. -/
theorem hmacs_of_short_keys (key data : Bytes) (hkey : key.length < 2 ^ 32)
    (hdata : data.length < 2 ^ 32) : (key.length ≤ 64 →
      hmacMd5 key data = some (macOf md5Algo.hash key data) ∧
      hmacSha1 key data = some (macOf sha1Algo.hash key data) ∧
      hmacSha256 key data = some (macOf sha256Algo.hash key data)) ∧ (64 < key.length →
      hmacMd5 key data = some (macOf md5Algo.hash [] data) ∧
      hmacSha1 key data = some (macOf sha1Algo.hash [] data) ∧
      hmacSha256 key data = some (macOf sha256Algo.hash [] data)) := by
  constructor
  · intro hshort
    exact ⟨hmac_short md5Algo_ok md5Digest_length (by decide) hshort hdata,
      hmac_short sha1Algo_ok sha1Digest_length (by decide) hshort hdata,
      hmac_short sha256Algo_ok sha256Digest_length (by decide) hshort hdata⟩
  · intro hlong
    exact ⟨hmac_long md5Algo_ok md5Digest_length (by decide) hlong hkey hdata,
      hmac_long sha1Algo_ok sha1Digest_length (by decide) hlong hkey hdata,
      hmac_long sha256Algo_ok sha256Digest_length (by decide) hlong hkey hdata⟩

theorem hmacs_of_jefe :
    ((lit "Jefe").length ≤ 64 →
      hmacMd5 (lit "Jefe") (lit "what") = some (macOf md5Algo.hash (lit "Jefe") (lit "what")) ∧
      hmacSha1 (lit "Jefe") (lit "what") = some (macOf sha1Algo.hash (lit "Jefe") (lit "what")) ∧
      hmacSha256 (lit "Jefe") (lit "what") =
        some (macOf sha256Algo.hash (lit "Jefe") (lit "what"))) ∧
    (64 < (lit "Jefe").length →
      hmacMd5 (lit "Jefe") (lit "what") = some (macOf md5Algo.hash [] (lit "what")) ∧
      hmacSha1 (lit "Jefe") (lit "what") = some (macOf sha1Algo.hash [] (lit "what")) ∧
      hmacSha256 (lit "Jefe") (lit "what") = some (macOf sha256Algo.hash [] (lit "what"))) :=
  hmacs_of_short_keys (lit "Jefe") (lit "what") (by decide) (by decide)

def macOnce (algo : HashAlgo σ) (key message : Bytes) : Option Bytes := do
  let hashed ← hashOnce algo key
  let inner ← hashOnce algo (xorPad (paddedKey (fun _ => hashed) key) 0x36 ++ message)
  hashOnce algo (xorPad (paddedKey (fun _ => hashed) key) 0x5c ++ inner)

theorem macOnce_eq (hok : algo.Ok) (hsize : ∀ s, (algo.digest s).length = size) (hsmall : size ≤ 64)
    {data : Bytes} (hkey : key.length < 2 ^ 32) (hdata : data.length + 64 < 2 ^ 32) :
    macOnce algo key data = some (macOf algo.hash key data) := by
  have hlen (m : Bytes) : (algo.hash m).length = size := hsize _
  have hpad (b : UInt8) :
      (xorPad (paddedKey (fun _ => algo.hash key) key) b).length = 64 := by
    rw [xorPad_length]
    exact paddedKey_length fun _ => (hlen key).le.trans hsmall
  have hinner := hashOnce_eq hok
    (xorPad (paddedKey (fun _ => algo.hash key) key) 0x36 ++ data) (by
      rw [length_append, hpad]
      omega)
  have houter := hashOnce_eq hok
    (xorPad (paddedKey (fun _ => algo.hash key) key) 0x5c ++
      algo.hash (xorPad (paddedKey (fun _ => algo.hash key) key) 0x36 ++ data)) (by
      rw [length_append, hpad, hlen]
      omega)
  simp only [macOnce, hashOnce_eq hok key hkey, hinner, houter, bind_eq_bind, bind_some]
  rfl

/-- With 65 bytes of key vox_hmac_md5 does not give the HMAC. -/
theorem long_key_lost : ¬ ∀ key data : Bytes, key.length < 2 ^ 32 → data.length < 2 ^ 32 →
    hmacMd5 key data = some (macOf md5Algo.hash key data) ∧
    hmacSha1 key data = some (macOf sha1Algo.hash key data) ∧
    hmacSha256 key data = some (macOf sha256Algo.hash key data) := by
  intro hall
  have hmd5 := (hall (List.replicate 65 0x61) [] (by decide) (by decide)).1
  rw [← macOnce_eq md5Algo_ok md5Digest_length (by decide) (by decide) (by decide)] at hmd5
  revert hmd5
  decide +kernel

end Voxlib.Crypto
