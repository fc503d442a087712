import Voxlib.Lib.Wire
import Voxlib.Lib.BlockHash

/-!
# MD5, SHA-1 and SHA-256 (vox_crypto.c)

The three share their context, update and final function. `none` is a call that does not end or
reads behind its input.
-/

namespace Voxlib.Crypto
open CStr Wire BlockHash List

abbrev Word := BitVec 32

def leftRotate (x : Word) (n : ℕ) : Word := (x <<< n) ||| (x >>> (32 - n))

def rightRotate (x : Word) (n : ℕ) : Word := (x >>> n) ||| (x <<< (32 - n))

/- The word at index `i` of a block, lowest byte first (memcpy on a little-endian machine). -/
def leWord (block : Bytes) (i : ℕ) : Word :=
  BitVec.ofNat 32 (ofU32 (block.getD (4 * i + 3) 0) (block.getD (4 * i + 2) 0)
    (block.getD (4 * i + 1) 0) (block.getD (4 * i) 0))

/- Highest byte first (memcpy and swap_uint32 there). -/
def beWord (block : Bytes) (i : ℕ) : Word :=
  BitVec.ofNat 32 (ofU32 (block.getD (4 * i) 0) (block.getD (4 * i + 1) 0)
    (block.getD (4 * i + 2) 0) (block.getD (4 * i + 3) 0))

def beBytes (x : Word) : Bytes := u32 x.toNat

def leBytes (x : Word) : Bytes := (u32 x.toNat).reverse

/- vox_md5_ctx_t, vox_sha1_ctx_t, vox_sha256_ctx_t; `count` is count[1] << 32 | count[0] in the
   first two. -/
structure HashCtx (σ : Type) where
  state : σ
  count : BitVec 64
  buffer : Bytes

/- What the functions of one hash have of their own: the first state, the transform, the loop
   condition and the width of the loop counter of the update, the eight bytes of the bit count, and
   the digest. -/
structure HashAlgo (σ : Type) where
  start : σ
  transform : σ → Bytes → σ
  more : ℕ → ℕ → Bool
  width : ℕ
  bits : BitVec 64 → Bytes
  digest : σ → Bytes

variable {σ : Type}

def writeAt (buffer : Bytes) (index : ℕ) (bytes : Bytes) : Bytes :=
  buffer.take index ++ bytes ++ buffer.drop (index + bytes.length)

/- The loop over the complete blocks of the input behind the first one. -/
def blockLoop (algo : HashAlgo σ) (input : Bytes) : ℕ → σ → ℕ → Option (σ × ℕ)
  | 0, _, _ => none
  | fuel + 1, state, i =>
    if algo.more i input.length then
      if input.length < i + 64 then none
      else blockLoop algo input fuel (algo.transform state ((input.drop i).take 64))
        ((i + 64) % algo.width)
    else some (state, i)

def HashCtx.index (ctx : HashCtx σ) : ℕ := (ctx.count >>> 3 &&& 0x3F).toNat

def hashInit (algo : HashAlgo σ) : HashCtx σ where
  state := algo.start
  count := 0
  buffer := List.replicate 64 0

def hashUpdate (algo : HashAlgo σ) (ctx : HashCtx σ) (input : Bytes) : Option (HashCtx σ) :=
  let index := ctx.index
  let count := ctx.count + (BitVec.ofNat 64 input.length <<< 3)
  let partLen := 64 - index
  if partLen ≤ input.length then
    let buffer := writeAt ctx.buffer index (input.take partLen)
    (blockLoop algo input (input.length + 1) (algo.transform ctx.state buffer) partLen).map
      fun (state, i) =>
        { state := state
          count := count
          buffer := if i < input.length then writeAt buffer 0 (input.drop i) else buffer }
  else
    some { ctx with
      count := count
      buffer := if 0 < input.length then writeAt ctx.buffer index input else ctx.buffer }

def padLen (index : ℕ) : ℕ := if index < 56 then 56 - index else 120 - index

def hashFinal (algo : HashAlgo σ) (ctx : HashCtx σ) : Option Bytes := do
  let bits := algo.bits ctx.count
  let padding := 0x80 :: List.replicate (padLen ctx.index - 1) 0
  let ctx ← hashUpdate algo ctx padding
  let ctx ← hashUpdate algo ctx bits
  return algo.digest ctx.state

def hashPieces (algo : HashAlgo σ) (pieces : List Bytes) : Option Bytes := do
  let ctx ← pieces.foldlM (hashUpdate algo) (hashInit algo)
  hashFinal algo ctx

/- vox_md5, vox_sha1, vox_sha256: the whole in one update. -/
def hashOnce (algo : HashAlgo σ) (data : Bytes) : Option Bytes := hashPieces algo [data]

structure Md5State where
  a : Word
  b : Word
  c : Word
  d : Word
  deriving DecidableEq

def md5S : List ℕ :=
  [7, 12, 17, 22, 7, 12, 17, 22, 7, 12, 17, 22, 7, 12, 17, 22,
    5, 9, 14, 20, 5, 9, 14, 20, 5, 9, 14, 20, 5, 9, 14, 20,
    4, 11, 16, 23, 4, 11, 16, 23, 4, 11, 16, 23, 4, 11, 16, 23,
    6, 10, 15, 21, 6, 10, 15, 21, 6, 10, 15, 21, 6, 10, 15, 21]

def md5K : List Word :=
  [0xd76aa478, 0xe8c7b756, 0x242070db, 0xc1bdceee,
    0xf57c0faf, 0x4787c62a, 0xa8304613, 0xfd469501,
    0x698098d8, 0x8b44f7af, 0xffff5bb1, 0x895cd7be,
    0x6b901122, 0xfd987193, 0xa679438e, 0x49b40821,
    0xf61e2562, 0xc040b340, 0x265e5a51, 0xe9b6c7aa,
    0xd62f105d, 0x02441453, 0xd8a1e681, 0xe7d3fbc8,
    0x21e1cde6, 0xc33707d6, 0xf4d50d87, 0x455a14ed,
    0xa9e3e905, 0xfcefa3f8, 0x676f02d9, 0x8d2a4c8a,
    0xfffa3942, 0x8771f681, 0x6d9d6122, 0xfde5380c,
    0xa4beea44, 0x4bdecfa9, 0xf6bb4b60, 0xbebfbc70,
    0x289b7ec6, 0xeaa127fa, 0xd4ef3085, 0x04881d05,
    0xd9d4d039, 0xe6db99e5, 0x1fa27cf8, 0xc4ac5665,
    0xf4292244, 0x432aff97, 0xab9423a7, 0xfc93a039,
    0x655b59c3, 0x8f0ccc92, 0xffeff47d, 0x85845dd1,
    0x6fa87e4f, 0xfe2ce6e0, 0xa3014314, 0x4e0811a1,
    0xf7537e82, 0xbd3af235, 0x2ad7d2bb, 0xeb86d391]

def md5F (x y z : Word) : Word := (x &&& y) ||| (~~~x &&& z)
def md5G (x y z : Word) : Word := (x &&& z) ||| (y &&& ~~~z)
def md5H (x y z : Word) : Word := x ^^^ y ^^^ z
def md5I (x y z : Word) : Word := y ^^^ (x ||| ~~~z)

def md5Round (x : List Word) (s : Md5State) (i : ℕ) : Md5State :=
  let (f, g) :=
    if i < 16 then (md5F s.b s.c s.d, i)
    else if i < 32 then (md5G s.b s.c s.d, (5 * i + 1) % 16)
    else if i < 48 then (md5H s.b s.c s.d, (3 * i + 5) % 16)
    else (md5I s.b s.c s.d, 7 * i % 16)
  let f := f + s.a + md5K.getD i 0 + x.getD g 0
  { a := s.d
    d := s.c
    c := s.b
    b := s.b + leftRotate f (md5S.getD i 0) }

def md5Transform (state : Md5State) (block : Bytes) : Md5State :=
  let x := (List.range 16).map (leWord block)
  let s := (List.range 64).foldl (md5Round x) state
  ⟨state.a + s.a, state.b + s.b, state.c + s.c, state.d + s.d⟩

def md5Algo : HashAlgo Md5State where
  start := ⟨0x67452301, 0xefcdab89, 0x98badcfe, 0x10325476⟩
  transform := md5Transform
  more := fun i len => (i + 63) % 2 ^ 32 < len
  width := 2 ^ 32
  bits := fun count => (u64 count.toNat).reverse
  digest := fun s => leBytes s.a ++ leBytes s.b ++ leBytes s.c ++ leBytes s.d

def md5Init : HashCtx Md5State := hashInit md5Algo
def md5Update : HashCtx Md5State → Bytes → Option (HashCtx Md5State) := hashUpdate md5Algo
def md5Final : HashCtx Md5State → Option Bytes := hashFinal md5Algo
def md5 : Bytes → Option Bytes := hashOnce md5Algo

structure Sha1State where
  a : Word
  b : Word
  c : Word
  d : Word
  e : Word
  deriving DecidableEq

def sha1Words (block : Bytes) : List Word :=
  (List.range' 16 64).foldl (fun w i => w ++
    [leftRotate (w.getD (i - 3) 0 ^^^ w.getD (i - 8) 0 ^^^ w.getD (i - 14) 0 ^^^
      w.getD (i - 16) 0) 1]) ((List.range 16).map (beWord block))

def sha1Round (w : List Word) (s : Sha1State) (i : ℕ) : Sha1State :=
  let (f, k) :=
    if i < 20 then ((s.b &&& s.c) ||| (~~~s.b &&& s.d), 0x5A827999)
    else if i < 40 then (s.b ^^^ s.c ^^^ s.d, 0x6ED9EBA1)
    else if i < 60 then ((s.b &&& s.c) ||| (s.b &&& s.d) ||| (s.c &&& s.d), 0x8F1BBCDC)
    else (s.b ^^^ s.c ^^^ s.d, 0xCA62C1D6)
  let temp := leftRotate s.a 5 + f + s.e + k + w.getD i 0
  { e := s.d
    d := s.c
    c := leftRotate s.b 30
    b := s.a
    a := temp }

def sha1Transform (state : Sha1State) (block : Bytes) : Sha1State :=
  let s := (List.range 80).foldl (sha1Round (sha1Words block)) state
  ⟨state.a + s.a, state.b + s.b, state.c + s.c, state.d + s.d, state.e + s.e⟩

def sha1Algo : HashAlgo Sha1State where
  start := ⟨0x67452301, 0xEFCDAB89, 0x98BADCFE, 0x10325476, 0xC3D2E1F0⟩
  transform := sha1Transform
  more := fun i len => (i + 63) % 2 ^ 32 < len
  width := 2 ^ 32
  bits := fun count => u64 count.toNat
  digest := fun s => beBytes s.a ++ beBytes s.b ++ beBytes s.c ++ beBytes s.d ++ beBytes s.e

def sha1Init : HashCtx Sha1State := hashInit sha1Algo
def sha1Update : HashCtx Sha1State → Bytes → Option (HashCtx Sha1State) := hashUpdate sha1Algo
def sha1Final : HashCtx Sha1State → Option Bytes := hashFinal sha1Algo
def sha1 : Bytes → Option Bytes := hashOnce sha1Algo

structure Sha256State where
  a : Word
  b : Word
  c : Word
  d : Word
  e : Word
  f : Word
  g : Word
  h : Word
  deriving DecidableEq

def sha256K : List Word :=
  [0x428a2f98, 0x71374491, 0xb5c0fbcf, 0xe9b5dba5,
    0x3956c25b, 0x59f111f1, 0x923f82a4, 0xab1c5ed5,
    0xd807aa98, 0x12835b01, 0x243185be, 0x550c7dc3,
    0x72be5d74, 0x80deb1fe, 0x9bdc06a7, 0xc19bf174,
    0xe49b69c1, 0xefbe4786, 0x0fc19dc6, 0x240ca1cc,
    0x2de92c6f, 0x4a7484aa, 0x5cb0a9dc, 0x76f988da,
    0x983e5152, 0xa831c66d, 0xb00327c8, 0xbf597fc7,
    0xc6e00bf3, 0xd5a79147, 0x06ca6351, 0x14292967,
    0x27b70a85, 0x2e1b2138, 0x4d2c6dfc, 0x53380d13,
    0x650a7354, 0x766a0abb, 0x81c2c92e, 0x92722c85,
    0xa2bfe8a1, 0xa81a664b, 0xc24b8b70, 0xc76c51a3,
    0xd192e819, 0xd6990624, 0xf40e3585, 0x106aa070,
    0x19a4c116, 0x1e376c08, 0x2748774c, 0x34b0bcb5,
    0x391c0cb3, 0x4ed8aa4a, 0x5b9cca4f, 0x682e6ff3,
    0x748f82ee, 0x78a5636f, 0x84c87814, 0x8cc70208,
    0x90befffa, 0xa4506ceb, 0xbef9a3f7, 0xc67178f2]

def sha256Ch (x y z : Word) : Word := (x &&& y) ^^^ (~~~x &&& z)
def sha256Maj (x y z : Word) : Word := (x &&& y) ^^^ (x &&& z) ^^^ (y &&& z)
def sha256Ep0 (x : Word) : Word := rightRotate x 2 ^^^ rightRotate x 13 ^^^ rightRotate x 22
def sha256Ep1 (x : Word) : Word := rightRotate x 6 ^^^ rightRotate x 11 ^^^ rightRotate x 25
def sha256Sig0 (x : Word) : Word := rightRotate x 7 ^^^ rightRotate x 18 ^^^ (x >>> 3)
def sha256Sig1 (x : Word) : Word := rightRotate x 17 ^^^ rightRotate x 19 ^^^ (x >>> 10)

def sha256Words (block : Bytes) : List Word :=
  (List.range' 16 48).foldl (fun w i => w ++
    [sha256Sig1 (w.getD (i - 2) 0) + w.getD (i - 7) 0 + sha256Sig0 (w.getD (i - 15) 0) +
      w.getD (i - 16) 0]) ((List.range 16).map (beWord block))

def sha256Round (w : List Word) (s : Sha256State) (i : ℕ) : Sha256State :=
  let temp1 := s.h + sha256Ep1 s.e + sha256Ch s.e s.f s.g + sha256K.getD i 0 + w.getD i 0
  let temp2 := sha256Ep0 s.a + sha256Maj s.a s.b s.c
  { h := s.g
    g := s.f
    f := s.e
    e := s.d + temp1
    d := s.c
    c := s.b
    b := s.a
    a := temp1 + temp2 }

def sha256Transform (state : Sha256State) (block : Bytes) : Sha256State :=
  let s := (List.range 64).foldl (sha256Round (sha256Words block)) state
  ⟨state.a + s.a, state.b + s.b, state.c + s.c, state.d + s.d, state.e + s.e, state.f + s.f,
    state.g + s.g, state.h + s.h⟩

def sha256Algo : HashAlgo Sha256State where
  start := ⟨0x6a09e667, 0xbb67ae85, 0x3c6ef372, 0xa54ff53a, 0x510e527f, 0x9b05688c, 0x1f83d9ab,
    0x5be0cd19⟩
  transform := sha256Transform
  more := fun i len => (i + 64) % 2 ^ 64 ≤ len
  width := 2 ^ 64
  bits := fun count => u64 count.toNat
  digest := fun s => beBytes s.a ++ beBytes s.b ++ beBytes s.c ++ beBytes s.d ++ beBytes s.e ++
    beBytes s.f ++ beBytes s.g ++ beBytes s.h

def sha256Init : HashCtx Sha256State := hashInit sha256Algo
def sha256Update : HashCtx Sha256State → Bytes → Option (HashCtx Sha256State) :=
  hashUpdate sha256Algo
def sha256Final : HashCtx Sha256State → Option Bytes := hashFinal sha256Algo
def sha256 : Bytes → Option Bytes := hashOnce sha256Algo

def HashAlgo.pad (algo : HashAlgo σ) (m : Bytes) : Bytes :=
  m ++ (0x80 :: List.replicate (padLen (m.length % 64) - 1) 0) ++
    algo.bits (BitVec.ofNat 64 (8 * m.length))

def HashAlgo.hash (algo : HashAlgo σ) (m : Bytes) : Bytes :=
  algo.digest (absorb algo.transform 64 algo.start (algo.pad m))

/- The loop condition is what it should be where the counter does not wrap around, and the bit
   count has eight bytes. -/
structure HashAlgo.Ok (algo : HashAlgo σ) : Prop where
  more : ∀ i len, i + 63 < algo.width → i < 2 ^ 61 → (algo.more i len = true ↔ i + 64 ≤ len)
  width : algo.width % 64 = 0
  bits : ∀ count, (algo.bits count).length = 8
  wide : 2 ^ 32 ≤ algo.width

theorem md5Algo_ok : md5Algo.Ok where
  more i len hi _ := by
    have hwidth : i + 63 < 2 ^ 32 := hi
    simp only [md5Algo, decide_eq_true_iff, Nat.mod_eq_of_lt hwidth]
    omega
  width := by decide
  bits count := by simp [md5Algo]
  wide := le_refl _

theorem sha1Algo_ok : sha1Algo.Ok where
  more i len hi _ := by
    have hwidth : i + 63 < 2 ^ 32 := hi
    simp only [sha1Algo, decide_eq_true_iff, Nat.mod_eq_of_lt hwidth]
    omega
  width := by decide
  bits count := by simp [sha1Algo]
  wide := le_refl _

theorem sha256Algo_ok : sha256Algo.Ok where
  more i len _ hi := by
    have hwidth : i + 64 < 2 ^ 64 := by omega
    simp only [sha256Algo, decide_eq_true_iff, Nat.mod_eq_of_lt hwidth]
  width := by decide
  bits count := by simp [sha256Algo]
  wide := by decide

structure Holds (algo : HashAlgo σ) (ctx : HashCtx σ) (m : Bytes) : Prop where
  state : ctx.state = absorb algo.transform 64 algo.start m
  count : ctx.count = BitVec.ofNat 64 (8 * m.length)
  size : ctx.buffer.length = 64
  buffer : ctx.buffer.take (m.length % 64) = pending 64 m

variable {algo : HashAlgo σ} {ctx : HashCtx σ} {m p : Bytes}

theorem hashInit_holds (algo : HashAlgo σ) : Holds algo (hashInit algo) [] where
  state := (absorb_short _ _ (by decide)).symm
  count := rfl
  size := length_replicate
  buffer := rfl

theorem Holds.index (h : Holds algo ctx m) : ctx.index = m.length % 64 := by
  have hmask (x : ℕ) : x &&& 63 = x % 64 := Nat.and_two_pow_sub_one_eq_mod x 6
  unfold HashCtx.index
  rw [h.count]
  simp only [BitVec.toNat_and, BitVec.toNat_ushiftRight, BitVec.toNat_ofNat,
    Nat.shiftRight_eq_div_pow]
  rw [show (63 : BitVec 64).toNat = 63 by decide, hmask]
  omega

theorem Holds.count_add (h : Holds algo ctx m) (p : Bytes) :
    ctx.count + (BitVec.ofNat 64 p.length <<< 3) = BitVec.ofNat 64 (8 * (m ++ p).length) := by
  rw [h.count]
  refine BitVec.eq_of_toNat_eq ?_
  simp only [BitVec.toNat_add, BitVec.toNat_shiftLeft, BitVec.toNat_ofNat,
    Nat.shiftLeft_eq, length_append]
  omega

theorem writeAt_length {buffer bytes : Bytes} {index : ℕ}
    (h : index + bytes.length ≤ buffer.length) :
    (writeAt buffer index bytes).length = buffer.length := by
  simp only [writeAt, length_append, length_take, length_drop]
  omega

theorem writeAt_take (buffer bytes : Bytes) {index : ℕ} (h : index ≤ buffer.length) :
    (writeAt buffer index bytes).take (index + bytes.length) = buffer.take index ++ bytes := by
  refine take_left' ?_
  rw [length_append, length_take, Nat.min_eq_left h]

theorem blockLoop_eq (hok : algo.Ok) {input : Bytes} (hshort : input.length < 2 ^ 61)
    {r : ℕ} (hwidth : r + input.length < algo.width) (fuel : ℕ) (s : σ) (i : ℕ)
    (hi : i ≤ input.length) (halign : (r + i) % 64 = 0) (hfuel : input.length < i + 64 * fuel) :
    blockLoop algo input fuel s i = some (absorb algo.transform 64 s (input.drop i),
        input.length - (pending 64 (input.drop i)).length) := by
  induction fuel generalizing s i with
  | zero => omega
  | succ fuel ih =>
    have hw := hok.width
    have hbound : i + 63 < algo.width := by omega
    have hmore := hok.more i input.length hbound (by omega)
    unfold blockLoop
    by_cases hblock : i + 64 ≤ input.length
    · rw [if_pos (hmore.mpr hblock), if_neg (by omega), Nat.mod_eq_of_lt (by omega),
        ih _ (i + 64) hblock (by omega) (by omega)]
      have hlong : 64 ≤ (input.drop i).length := by
        rw [length_drop]
        omega
      rw [absorb_block _ (by decide) s hlong, pending_block (by decide) hlong, drop_drop]
    · have hrest : (input.drop i).length < 64 := by
        rw [length_drop]
        omega
      rw [if_neg fun h => hblock (hmore.mp h), absorb_short _ s hrest, pending_short hrest,
        length_drop]
      congr 2
      omega

/-- An update carries the context on behind the message with the piece. -/
theorem hashUpdate_holds (hok : algo.Ok) (h : Holds algo ctx m) (hshort : p.length < 2 ^ 61)
    (hwidth : m.length % 64 + p.length < algo.width) :
    ∃ ctx', hashUpdate algo ctx p = some ctx' ∧ Holds algo ctx' (m ++ p) := by
  have hindex := h.index
  have hcount := h.count_add p
  have hmod : m.length % 64 < 64 := Nat.mod_lt _ (by decide)
  have hstate : absorb algo.transform 64 algo.start (m ++ p) =
      absorb algo.transform 64 ctx.state (pending 64 m ++ p) := by
    rw [h.state]
    exact absorb_append algo.transform (by decide) algo.start m p
  have hpending := pending_append (b := 64) (by decide) m p
  have hsize := h.size
  have hplen : (pending 64 m).length = m.length % 64 := pending_length m
  have hlen : (m ++ p).length % 64 = (pending 64 (pending 64 m ++ p)).length := by
    rw [← hpending, pending_length]
  unfold hashUpdate
  rw [hindex]
  dsimp only
  by_cases hpart : 64 - m.length % 64 ≤ p.length
  · -- the first block is complete
    have hfull : writeAt ctx.buffer (m.length % 64) (p.take (64 - m.length % 64)) =
        pending 64 m ++ p.take (64 - m.length % 64) := by
      have htake : (p.take (64 - m.length % 64)).length = 64 - m.length % 64 :=
        length_take_of_le hpart
      have hdrop : ctx.buffer.drop 64 = [] := drop_eq_nil_of_le (by omega)
      unfold writeAt
      rw [h.buffer, htake, Nat.add_sub_cancel' hmod.le, hdrop, append_nil]
    have hblock : 64 ≤ (pending 64 m ++ p).length := by
      rw [length_append, hplen]
      omega
    have hfirst : (pending 64 m ++ p).take 64 = pending 64 m ++ p.take (64 - m.length % 64) := by
      rw [take_append, hplen, take_of_length_le (by omega)]
    have hbehind : (pending 64 m ++ p).drop 64 = p.drop (64 - m.length % 64) := by
      rw [drop_append, hplen, drop_eq_nil_of_le (by omega), nil_append]
    rw [if_pos hpart, blockLoop_eq hok hshort hwidth _ _ _ hpart (by omega) (by omega), hfull]
    rw [absorb_block _ (by decide) _ hblock, hfirst, hbehind] at hstate
    rw [pending_block (by decide) hblock, hbehind] at hpending hlen
    have hrest := pending_length (b := 64) (p.drop (64 - m.length % 64))
    have htail : p.drop (p.length - (pending 64 (p.drop (64 - m.length % 64))).length) =
        pending 64 (p.drop (64 - m.length % 64)) := by
      have hsuffix : pending 64 (p.drop (64 - m.length % 64)) <:+ p :=
        (drop_suffix _ _).trans (drop_suffix _ _)
      exact (suffix_iff_eq_drop.mp hsuffix).symm
    have hfullLength : (pending 64 m ++ p.take (64 - m.length % 64)).length = 64 := by
      rw [length_append, hplen, length_take_of_le hpart]
      omega
    refine ⟨_, rfl, hstate.symm, hcount, ?_, ?_⟩
    · dsimp only
      split
      · rw [writeAt_length, hfullLength]
        rw [htail, hfullLength]
        omega
      · exact hfullLength
    · dsimp only
      rw [hpending, hlen]
      split
      · next hlt =>
        rw [htail]
        have hput := writeAt_take (pending 64 m ++ p.take (64 - m.length % 64))
          (pending 64 (p.drop (64 - m.length % 64))) (Nat.zero_le _)
        rw [Nat.zero_add, take_zero, nil_append] at hput
        exact hput
      · have hzero : (pending 64 (p.drop (64 - m.length % 64))).length = 0 := by
          have hle : (p.drop (64 - m.length % 64)).length ≤ p.length := by
            rw [length_drop]
            omega
          have hmodle := Nat.mod_le (p.drop (64 - m.length % 64)).length 64
          omega
        rw [hzero, eq_nil_of_length_eq_zero hzero, take_zero]
  · -- the piece is added to the buffer
    have hsum : (pending 64 m ++ p).length = m.length % 64 + p.length := by
      rw [length_append, hplen]
    have hsmall : (pending 64 m ++ p).length < 64 := by omega
    rw [if_neg hpart]
    rw [absorb_short _ _ hsmall] at hstate
    rw [pending_short hsmall, hsum] at hlen
    rw [pending_short hsmall] at hpending
    refine ⟨_, rfl, hstate.symm, hcount, ?_, ?_⟩
    · dsimp only
      split
      · rw [writeAt_length (by omega), hsize]
      · exact hsize
    · dsimp only
      rw [hpending, hlen]
      split
      · rw [writeAt_take _ _ (by omega), h.buffer]
      · next hnone =>
        have hnil : p = [] := eq_nil_of_length_eq_zero (by omega)
        rw [hnil, length_nil, Nat.add_zero, append_nil, h.buffer]

theorem padLen_bounds {index : ℕ} (h : index < 64) :
    1 ≤ padLen index ∧ padLen index ≤ 64 ∧ (index + padLen index) % 64 = 56 := by
  unfold padLen
  split <;> omega

theorem hashFinal_holds (hok : algo.Ok) (h : Holds algo ctx m) :
    hashFinal algo ctx = some (algo.hash m) := by
  have hmod : m.length % 64 < 64 := Nat.mod_lt _ (by decide)
  obtain ⟨hone, hsixtyfour, -⟩ := padLen_bounds hmod
  have hpad : (0x80 :: List.replicate (padLen (m.length % 64) - 1) (0 : UInt8)).length =
      padLen (m.length % 64) := by
    rw [length_cons, length_replicate]
    omega
  have hwide := hok.wide
  obtain ⟨padded, hup, hpadded⟩ := hashUpdate_holds hok h
    (p := 0x80 :: List.replicate (padLen (m.length % 64) - 1) 0) (by omega) (by omega)
  have hbits := hok.bits (BitVec.ofNat 64 (8 * m.length))
  obtain ⟨last, hlast, hdone⟩ := hashUpdate_holds hok hpadded
    (p := algo.bits (BitVec.ofNat 64 (8 * m.length))) (by omega) (by omega)
  unfold hashFinal
  rw [h.index, h.count]
  simp only [hup, hlast, Option.bind_eq_bind, Option.bind_some, Option.pure_def]
  rw [hdone.state]
  rfl

/-- Behind `n` bytes, no piece reaches `w` bytes together with what the buffer holds. -/
def Narrow (w : ℕ) : ℕ → List Bytes → Prop
  | _, [] => True
  | n, p :: rest => n % 64 + p.length < w ∧ Narrow w (n + p.length) rest

theorem updates_narrow (hok : algo.Ok) (pieces : List Bytes)
    (hlen : ∀ p ∈ pieces, p.length < 2 ^ 61) (h : Holds algo ctx m)
    (hnarrow : Narrow algo.width m.length pieces) : ∃ ctx', pieces.foldlM (hashUpdate algo) ctx = some ctx' ∧
      Holds algo ctx' (m ++ pieces.flatten) := by
  induction pieces generalizing ctx m with
  | nil => exact ⟨ctx, rfl, by simpa using h⟩
  | cons p rest ih =>
    obtain ⟨hp, hrest⟩ := forall_mem_cons.mp hlen
    obtain ⟨hfirst, hbehind⟩ := hnarrow
    obtain ⟨next, hnext, hholds⟩ := hashUpdate_holds hok h hp hfirst
    rw [← length_append] at hbehind
    obtain ⟨last, hlast, hend⟩ := ih hrest hholds hbehind
    refine ⟨last, ?_, by simpa using hend⟩
    rw [foldlM_cons, hnext]
    exact hlast

theorem hashPieces_eq (hok : algo.Ok) (pieces : List Bytes)
    (hpieces : ∀ p ∈ pieces, p.length < 2 ^ 61 ∧ p.length + 63 < algo.width) :
    hashPieces algo pieces = some (algo.hash pieces.flatten) := by
  have hnarrow (n : ℕ) : Narrow algo.width n pieces := by
    induction pieces generalizing n with
    | nil => trivial
    | cons p rest ih =>
      obtain ⟨hp, hrest⟩ := forall_mem_cons.mp hpieces
      have hmod : n % 64 < 64 := Nat.mod_lt _ (by decide)
      exact ⟨by omega, ih hrest _⟩
  obtain ⟨ctx, hctx, hholds⟩ := updates_narrow hok pieces (fun p hp => (hpieces p hp).1)
    (hashInit_holds algo) (hnarrow 0)
  unfold hashPieces
  rw [hctx]
  exact hashFinal_holds hok hholds

end Voxlib.Crypto
