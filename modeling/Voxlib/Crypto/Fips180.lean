import Mathlib.Analysis.SpecialFunctions.Pow.NthRootLemmas
import Voxlib.Crypto.Hash

/-!
# SHA-256 as the standard defines it

FIPS 180-4 (4.1.2, 4.2.2, 5.1.1, 5.2.1, 5.3.3, 6.2.2) for messages of whole bytes.
-/

namespace Voxlib.Crypto.Fips180
open CStr Wire BlockHash List

def ch (x y z : Word) : Word := (x &&& y) ^^^ (~~~x &&& z)
def maj (x y z : Word) : Word := (x &&& y) ^^^ (x &&& z) ^^^ (y &&& z)
def bigSigma0 (x : Word) : Word := x.rotateRight 2 ^^^ x.rotateRight 13 ^^^ x.rotateRight 22
def bigSigma1 (x : Word) : Word := x.rotateRight 6 ^^^ x.rotateRight 11 ^^^ x.rotateRight 25
def sigma0 (x : Word) : Word := x.rotateRight 7 ^^^ x.rotateRight 18 ^^^ (x >>> 3)
def sigma1 (x : Word) : Word := x.rotateRight 17 ^^^ x.rotateRight 19 ^^^ (x >>> 10)

def primes : List ℕ :=
  [2, 3, 5, 7, 11, 13, 17, 19, 23, 29, 31, 37, 41, 43, 47, 53, 59, 61, 67, 71, 73, 79, 83, 89, 97,
    101, 103, 107, 109, 113, 127, 131, 137, 139, 149, 151, 157, 163, 167, 173, 179, 181, 191, 193,
    197, 199, 211, 223, 227, 229, 233, 239, 241, 251, 257, 263, 269, 271, 277, 281, 283, 293, 307,
    311]

/- The first 32 bits of the fractional part of the `n`th root of `p`. -/
def rootBits (n p : ℕ) : Word := BitVec.ofNat 32 (Nat.nthRoot n (p * 2 ^ (32 * n)))

def constants : List Word := primes.map (rootBits 3)

def initial : List Word := (primes.take 8).map (rootBits 2)

def zeros (len : ℕ) : ℕ := (119 - len % 64) % 64

theorem zeros_least (len : ℕ) :
    (len + 1 + zeros len) % 64 = 56 ∧ ∀ z, (len + 1 + z) % 64 = 56 → zeros len ≤ z := by
  unfold zeros
  constructor
  · omega
  · intro z hz
    omega

def pad (m : Bytes) : Bytes :=
  m ++ [0x80] ++ List.replicate (zeros m.length) 0 ++ u64 (8 * m.length)

def schedule (M : ℕ → Word) (t : ℕ) : Word :=
  if t < 16 then M t
  else sigma1 (schedule M (t - 2)) + schedule M (t - 7) + sigma0 (schedule M (t - 15)) +
    schedule M (t - 16)
termination_by t

def round (M : ℕ → Word) (v : Sha256State) (t : ℕ) : Sha256State :=
  let t1 := v.h + bigSigma1 v.e + ch v.e v.f v.g + constants.getD t 0 + schedule M t
  let t2 := bigSigma0 v.a + maj v.a v.b v.c
  ⟨t1 + t2, v.a, v.b, v.c, v.d + t1, v.e, v.f, v.g⟩

def compress (H : Sha256State) (M : ℕ → Word) : Sha256State :=
  let v := (List.range 64).foldl (round M) H
  ⟨v.a + H.a, v.b + H.b, v.c + H.c, v.d + H.d, v.e + H.e, v.f + H.f, v.g + H.g, v.h + H.h⟩

def firstHash : Sha256State :=
  ⟨initial.getD 0 0, initial.getD 1 0, initial.getD 2 0, initial.getD 3 0, initial.getD 4 0,
    initial.getD 5 0, initial.getD 6 0, initial.getD 7 0⟩

def blockWords (m : Bytes) (i : ℕ) : ℕ → Word := beWord ((pad m).drop (64 * i))

def sha256Digest (m : Bytes) : Bytes :=
  let H := (List.range ((pad m).length / 64)).foldl (fun H i => compress H (blockWords m i))
    firstHash
  beBytes H.a ++ beBytes H.b ++ beBytes H.c ++ beBytes H.d ++ beBytes H.e ++ beBytes H.f ++
    beBytes H.g ++ beBytes H.h

variable (x : Word)

theorem rightRotate_eq {n : ℕ} (h : n < 32) : rightRotate x n = x.rotateRight n := by
  rw [rightRotate, BitVec.rotateRight_def, Nat.mod_eq_of_lt h]

theorem sha256Ep0_eq : sha256Ep0 x = bigSigma0 x := by
  simp only [sha256Ep0, bigSigma0, rightRotate_eq _ (show 2 < 32 by decide),
    rightRotate_eq _ (show 13 < 32 by decide), rightRotate_eq _ (show 22 < 32 by decide)]

theorem sha256Ep1_eq : sha256Ep1 x = bigSigma1 x := by
  simp only [sha256Ep1, bigSigma1, rightRotate_eq _ (show 6 < 32 by decide),
    rightRotate_eq _ (show 11 < 32 by decide), rightRotate_eq _ (show 25 < 32 by decide)]

theorem sha256Sig0_eq : sha256Sig0 x = sigma0 x := by
  simp only [sha256Sig0, sigma0, rightRotate_eq _ (show 7 < 32 by decide),
    rightRotate_eq _ (show 18 < 32 by decide)]

theorem sha256Sig1_eq : sha256Sig1 x = sigma1 x := by
  simp only [sha256Sig1, sigma1, rightRotate_eq _ (show 17 < 32 by decide),
    rightRotate_eq _ (show 19 < 32 by decide)]

theorem rootBits_eq {n p r : ℕ} (hn : n ≠ 0) (hle : r ^ n ≤ p * 2 ^ (32 * n))
    (hlt : p * 2 ^ (32 * n) < (r + 1) ^ n) : rootBits n p = BitVec.ofNat 32 r := by
  have hup : r ≤ Nat.nthRoot n (p * 2 ^ (32 * n)) := (Nat.le_nthRoot_iff hn).mpr hle
  have hdown : ¬ r + 1 ≤ Nat.nthRoot n (p * 2 ^ (32 * n)) := fun h =>
    absurd ((Nat.le_nthRoot_iff hn).mp h) (Nat.not_le.mpr hlt)
  rw [rootBits, Nat.le_antisymm (Nat.lt_succ_iff.mp (Nat.not_le.mp hdown)) hup]

/- `k` is the fraction of the root; the integer part is below 18. -/
def isFraction (n : ℕ) (pk : ℕ × Word) : Bool := (List.range 18).any fun i =>
  (i * 2 ^ 32 + pk.2.toNat) ^ n ≤ pk.1 * 2 ^ (32 * n) &&
    pk.1 * 2 ^ (32 * n) < (i * 2 ^ 32 + pk.2.toNat + 1) ^ n

theorem map_rootBits {n : ℕ} (hn : n ≠ 0) {ps : List ℕ} {ks : List Word}
    (hlen : ps.length = ks.length) (h : (ps.zip ks).all (isFraction n) = true) :
    ps.map (rootBits n) = ks := by
  refine ext_getElem (by simpa using hlen) fun i hp hk => ?_
  rw [length_map] at hp
  have hmem : (ps[i], ks[i]) ∈ ps.zip ks := mem_iff_getElem.mpr
    ⟨i, by simpa using ⟨hp, hk⟩, getElem_zip⟩
  obtain ⟨r, -, hr⟩ := any_eq_true.mp (all_eq_true.mp h _ hmem)
  obtain ⟨hle, hlt⟩ := (Bool.and_eq_true _ _).mp hr
  rw [getElem_map, rootBits_eq hn (of_decide_eq_true hle) (of_decide_eq_true hlt)]
  refine BitVec.eq_of_toNat_eq ?_
  have hword := ks[i].isLt
  rw [BitVec.toNat_ofNat]
  show (r * 2 ^ 32 + ks[i].toNat) % 2 ^ 32 = ks[i].toNat
  omega

theorem sha256K_eq : sha256K = constants :=
  (map_rootBits (by decide) (by decide) (by decide +kernel)).symm

theorem start_eq : sha256Algo.start = firstHash := by
  have hinitial : initial = [0x6a09e667, 0xbb67ae85, 0x3c6ef372, 0xa54ff53a, 0x510e527f,
      0x9b05688c, 0x1f83d9ab, 0x5be0cd19] :=
    map_rootBits (by decide) (by decide) (by decide +kernel)
  rw [firstHash, hinitial]
  rfl

theorem schedule_next (M : ℕ → Word) {t : ℕ} (h : 16 ≤ t) :
    schedule M t = sigma1 (schedule M (t - 2)) + schedule M (t - 7) +
      sigma0 (schedule M (t - 15)) + schedule M (t - 16) := by
  rw [schedule, if_neg (Nat.not_lt.mpr h)]

theorem getD_map_range (f : ℕ → Word) {n i : ℕ} (h : i < n) :
    ((List.range n).map f).getD i 0 = f i := by
  rw [getD_eq_getElem?_getD, List.getElem?_map, List.getElem?_range h]
  rfl

theorem words_prefix {M W : ℕ → Word} (next : (ℕ → Word) → ℕ → Word) (hfirst : ∀ t < 16, M t = W t)
    (hnext : ∀ w t, 16 ≤ t → (∀ j < t, w j = W j) → next w t = W t) (n : ℕ) :
    (List.range' 16 n).foldl (fun w i => w ++ [next (fun j => w.getD j 0) i])
      ((List.range 16).map M) = (List.range (16 + n)).map W := by
  induction n with
  | zero => exact map_congr_left fun t ht => hfirst t (mem_range.mp ht)
  | succ n ih =>
    have hlast : 16 + 1 * n = 16 + n := by omega
    rw [range'_concat, foldl_append, ih, foldl_cons, foldl_nil, hlast,
      hnext _ (16 + n) (by omega) fun j hj => getD_map_range W hj, ← Nat.add_assoc 16 n 1,
      range_succ, map_append]
    rfl

theorem beWord_take (b : Bytes) {t : ℕ} (h : t < 16) : beWord (b.take 64) t = beWord b t := by
  have hget (i : ℕ) (hi : i < 64) : (b.take 64).getD i 0 = b.getD i 0 := by
    rw [getD_eq_getElem?_getD, getD_eq_getElem?_getD, List.getElem?_take_of_lt hi]
  unfold beWord
  rw [hget (4 * t) (by omega), hget (4 * t + 1) (by omega), hget (4 * t + 2) (by omega),
    hget (4 * t + 3) (by omega)]

theorem sha256Words_getD (block : Bytes) {t : ℕ} (h : t < 64) :
    (sha256Words (block.take 64)).getD t 0 = schedule (beWord block) t := by
  have hfirst (t : ℕ) (ht : t < 16) : beWord (block.take 64) t = schedule (beWord block) t := by
    rw [beWord_take block ht, schedule, if_pos ht]
  have hwords := words_prefix (W := schedule (beWord block))
    (fun w i => sha256Sig1 (w (i - 2)) + w (i - 7) + sha256Sig0 (w (i - 15)) + w (i - 16))
    hfirst (fun w t ht hw => by
      rw [hw _ (by omega), hw _ (by omega), hw _ (by omega), hw _ (by omega), sha256Sig1_eq,
        sha256Sig0_eq, ← schedule_next _ ht]) 48
  exact (congrArg (·.getD t 0) hwords).trans (getD_map_range _ h)

theorem foldl_range_congr {σ : Type*} {f g : σ → ℕ → σ} (n : ℕ) (s : σ)
    (h : ∀ s i, i < n → f s i = g s i) : (List.range n).foldl f s = (List.range n).foldl g s := by
  induction n with
  | zero => rfl
  | succ n ih =>
    rw [range_succ, foldl_append, foldl_append,
      ih fun s i hi => h s i (Nat.lt_succ_of_lt hi)]
    exact h _ n (Nat.lt_succ_self n)

theorem sha256Round_eq (block : Bytes) (v : Sha256State) {t : ℕ} (h : t < 64) :
    sha256Round (sha256Words (block.take 64)) v t = round (beWord block) v t := by
  simp only [sha256Round, round, sha256Words_getD block h, sha256K_eq, sha256Ep0_eq, sha256Ep1_eq]
  rfl

theorem sha256Transform_eq (H : Sha256State) (block : Bytes) :
    sha256Transform H (block.take 64) = compress H (beWord block) := by
  have hrounds := foldl_range_congr 64 H fun v t ht => sha256Round_eq block v (t := t) ht
  simp only [sha256Transform, compress, hrounds, BitVec.add_comm]

theorem pad_eq {m : Bytes} (h : m.length < 2 ^ 61) : sha256Algo.pad m = pad m := by
  have hbits : (BitVec.ofNat 64 (8 * m.length)).toNat = 8 * m.length := by
    rw [BitVec.toNat_ofNat]
    omega
  have hzeros : padLen (m.length % 64) - 1 = zeros m.length := by
    unfold padLen zeros
    split <;> omega
  rw [HashAlgo.pad, pad, hzeros]
  show _ ++ u64 (BitVec.ofNat 64 (8 * m.length)).toNat = _
  rw [hbits, append_assoc m [0x80], singleton_append]

theorem hash_eq {m : Bytes} (h : m.length < 2 ^ 61) : sha256Algo.hash m = sha256Digest m := by
  rw [HashAlgo.hash, pad_eq h, absorb_eq_foldl _ (by decide), start_eq]
  exact congrArg sha256Algo.digest (foldl_range_congr _ _ fun H i _ =>
    sha256Transform_eq H ((pad m).drop (64 * i)))

/-- Init, one update for each piece and final give the digest of the standard. -/
theorem pieces_digest (pieces : List Bytes) (h : pieces.flatten.length < 2 ^ 61) :
    ((pieces.foldlM sha256Update sha256Init).bind sha256Final) =
      some (sha256Digest pieces.flatten) := by
  have hpieces : ∀ p ∈ pieces, p.length < 2 ^ 61 ∧ p.length + 63 < sha256Algo.width := by
    intro p hp
    have hle : p.length ≤ pieces.flatten.length := by
      rw [length_flatten]
      exact le_sum_of_mem (mem_map_of_mem hp)
    have hwidth : sha256Algo.width = 2 ^ 64 := rfl
    constructor <;> omega
  rw [← hash_eq h]
  exact hashPieces_eq sha256Algo_ok pieces hpieces

theorem abc_digest : ([lit "a", [], lit "bc"].foldlM sha256Update sha256Init).bind sha256Final =
    some (sha256Digest (lit "abc")) :=
  pieces_digest [lit "a", [], lit "bc"] (by decide)

/-- The example of the standard. -/
example : (sha256 (lit "abc")).map (·.take 4) = some [0xba, 0x78, 0x16, 0xbf] := by
  decide +kernel

end Voxlib.Crypto.Fips180
