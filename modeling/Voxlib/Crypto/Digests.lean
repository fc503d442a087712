import Mathlib.NumberTheory.Zsqrtd.GaussianInt
import Voxlib.Crypto.Fips180

/-!
# MD5 and SHA-1 as the standards define them

RFC 1321 and FIPS 180-4 (4.1.1, 4.2.1, 6.1) for messages of whole bytes.
-/

namespace Voxlib.Crypto
open CStr Wire BlockHash List

section Narrow
variable {σ : Type} {algo : HashAlgo σ} {ctx : HashCtx σ} {m p : Bytes}

/- for (i = partLen; i + 63 < len; i += 64) with a uint32_t i. -/
structure HashAlgo.Counts32 (algo : HashAlgo σ) : Prop where
  more : ∀ i len, algo.more i len = true ↔ (i + 63) % 2 ^ 32 < len
  width : algo.width = 2 ^ 32

theorem blockLoop_none (hc : algo.Counts32) {input : Bytes} {r : ℕ} (hr : r < 64)
    (hlong : 2 ^ 32 ≤ r + input.length) (fuel : ℕ) (s : σ) (i : ℕ) (halign : (r + i) % 64 = 0) :
    blockLoop algo input fuel s i = none := by
  induction fuel generalizing s i with
  | zero => rfl
  | succ fuel ih =>
    have hmore : algo.more i input.length = true := (hc.more i _).mpr (by omega)
    unfold blockLoop
    rw [if_pos hmore]
    split
    · rfl
    · refine ih _ _ ?_
      rw [hc.width]
      omega

theorem hashUpdate_none (hc : algo.Counts32) (h : Holds algo ctx m)
    (hlong : 2 ^ 32 ≤ m.length % 64 + p.length) : hashUpdate algo ctx p = none := by
  have hmod : m.length % 64 < 64 := Nat.mod_lt _ (by decide)
  unfold hashUpdate
  rw [h.index]
  dsimp only
  rw [if_pos (by omega), blockLoop_none hc hmod hlong _ _ _ (by omega)]
  rfl

theorem updates_wide (hok : algo.Ok) (hc : algo.Counts32) (pieces : List Bytes)
    (hlen : ∀ p ∈ pieces, p.length < 2 ^ 61) (h : Holds algo ctx m)
    (hwide : ¬ Narrow algo.width m.length pieces) : pieces.foldlM (hashUpdate algo) ctx = none := by
  induction pieces generalizing ctx m with
  | nil => exact absurd trivial hwide
  | cons p rest ih =>
    obtain ⟨hp, hrest⟩ := forall_mem_cons.mp hlen
    rw [foldlM_cons]
    by_cases hfirst : m.length % 64 + p.length < algo.width
    · obtain ⟨next, hnext, hholds⟩ := hashUpdate_holds hok h hp hfirst
      rw [hnext]
      refine ih hrest hholds fun hbehind => hwide ⟨hfirst, ?_⟩
      rwa [length_append] at hbehind
    · rw [hc.width] at hfirst
      rw [hashUpdate_none hc h (Nat.not_lt.mp hfirst)]
      rfl

theorem pieces_hash_iff (hok : algo.Ok) (hc : algo.Counts32) (pieces : List Bytes)
    (h : pieces.flatten.length < 2 ^ 61) :
    (pieces.foldlM (hashUpdate algo) (hashInit algo)).bind (hashFinal algo) =
      some (algo.hash pieces.flatten) ↔ Narrow (2 ^ 32) 0 pieces := by
  rw [← hc.width]
  have hlen : ∀ p ∈ pieces, p.length < 2 ^ 61 := fun p hp =>
    lt_of_le_of_lt (sublist_flatten_of_mem hp).length_le h
  constructor
  · intro hrun
    by_contra hwide
    rw [updates_wide hok hc pieces hlen (hashInit_holds algo) hwide] at hrun
    exact absurd hrun (by simp)
  · intro hnarrow
    obtain ⟨last, hlast, hholds⟩ :=
      updates_narrow hok pieces hlen (hashInit_holds algo) hnarrow
    rw [hlast]
    exact hashFinal_holds hok hholds

end Narrow

theorem leftRotate_eq (x : Word) {n : ℕ} (h : n < 32) : leftRotate x n = x.rotateLeft n := by
  rw [leftRotate, BitVec.rotateLeft_def, Nat.mod_eq_of_lt h]

theorem zeros_eq (len : ℕ) : padLen (len % 64) - 1 = Fips180.zeros len := by
  unfold padLen Fips180.zeros
  split <;> omega

theorem bitCount_toNat {m : Bytes} (h : m.length < 2 ^ 61) :
    (BitVec.ofNat 64 (8 * m.length)).toNat = 8 * m.length := by
  rw [BitVec.toNat_ofNat]
  omega

namespace Rfc1321

noncomputable def T (i : ℕ) : Word := BitVec.ofNat 32 ⌊2 ^ 32 * |Real.sin (i + 1)|⌋₊

def F (x y z : Word) : Word := (x &&& y) ||| (~~~x &&& z)
def G (x y z : Word) : Word := (x &&& z) ||| (y &&& ~~~z)
def H (x y z : Word) : Word := x ^^^ y ^^^ z
def I (x y z : Word) : Word := y ^^^ (x ||| ~~~z)

def mix : ℕ → Word → Word → Word → Word
  | 0 => F
  | 1 => G
  | 2 => H
  | _ => I

def k : List ℕ :=
  [0, 1, 2, 3, 4, 5, 6, 7, 8, 9, 10, 11, 12, 13, 14, 15,
    1, 6, 11, 0, 5, 10, 15, 4, 9, 14, 3, 8, 13, 2, 7, 12,
    5, 8, 11, 14, 1, 4, 7, 10, 13, 0, 3, 6, 9, 12, 15, 2,
    0, 7, 14, 5, 12, 3, 10, 1, 8, 15, 6, 13, 4, 11, 2, 9]

def shifts : List (List ℕ) := [[7, 12, 17, 22], [5, 9, 14, 20], [4, 11, 16, 23], [6, 10, 15, 21]]

/- [abcd k s i]: a = b + ((a + F(b,c,d) + X[k] + T[i]) <<< s). -/
noncomputable def op (X : ℕ → Word) (i : ℕ) (a b c d : Word) : Word :=
  b + (a + mix (i / 16) b c d + X (k.getD i 0) + T i).rotateLeft
    ((shifts.getD (i / 16) []).getD (i % 4) 0)

noncomputable def row (X : ℕ → Word) (v : Md5State) (g : ℕ) : Md5State :=
  let a := op X (4 * g) v.a v.b v.c v.d
  let d := op X (4 * g + 1) v.d a v.b v.c
  let c := op X (4 * g + 2) v.c d a v.b
  let b := op X (4 * g + 3) v.b c d a
  ⟨a, b, c, d⟩

noncomputable def compress (H : Md5State) (X : ℕ → Word) : Md5State :=
  let v := (List.range 16).foldl (row X) H
  ⟨H.a + v.a, H.b + v.b, H.c + v.c, H.d + v.d⟩

def pad (m : Bytes) : Bytes :=
  m ++ [0x80] ++ List.replicate (Fips180.zeros m.length) 0 ++ (u64 (8 * m.length)).reverse

noncomputable def md5Digest (m : Bytes) : Bytes :=
  let H := (List.range ((pad m).length / 64)).foldl
    (fun H i => compress H (leWord ((pad m).drop (64 * i))))
    ⟨0x67452301, 0xefcdab89, 0x98badcfe, 0x10325476⟩
  leBytes H.a ++ leBytes H.b ++ leBytes H.c ++ leBytes H.d

/-! The sine table: the powers of the first terms of the series of `exp i`. -/

/- `i^n`, and `n!` times the first `n + 1` terms of the series of `exp i`. -/
def taylor : ℕ → GaussianInt × GaussianInt
  | 0 => (1, 1)
  | n + 1 =>
    let next := ⟨0, 1⟩ * (taylor n).1
    (next, ⟨n + 1, 0⟩ * (taylor n).2 + next)

theorem taylor_eq (n : ℕ) : ((taylor n).1 : ℂ) = Complex.I ^ n ∧ ((taylor n).2 : ℂ) =
    n.factorial * ∑ m ∈ Finset.range (n + 1), Complex.I ^ m / m.factorial := by
  induction n with
  | zero => simp [taylor]
  | succ n ih =>
    have hfac : ((n + 1).factorial : ℂ) ≠ 0 := by exact_mod_cast Nat.factorial_ne_zero _
    have hpower : ((taylor (n + 1)).1 : ℂ) = Complex.I ^ (n + 1) := by
      simp [taylor, ih.1, pow_succ', GaussianInt.toComplex_def']
    have hstep : ((taylor (n + 1)).2 : ℂ) =
        (n + 1) * ((taylor n).2 : ℂ) + ((taylor (n + 1)).1 : ℂ) := by
      simp [taylor, GaussianInt.toComplex_def']
    refine ⟨hpower, ?_⟩
    rw [hstep, hpower, ih.2, Finset.sum_range_succ _ (n + 1), mul_add, mul_div_cancel₀ _ hfac,
      Nat.factorial_succ, ← mul_assoc]
    push_cast
    ring

def num : GaussianInt := (taylor 31).2
def den : ℕ := Nat.factorial 31

theorem num_near : ‖Complex.exp Complex.I - (num : ℂ) / den‖ ≤ 1 / (16 * den) := by
  have hden : (den : ℂ) ≠ 0 := by exact_mod_cast Nat.factorial_ne_zero 31
  have hbound := Complex.exp_bound' (x := Complex.I) (n := 32) (by norm_num)
  have hsum := (taylor_eq 31).2
  rw [show Nat.factorial 31 = den from rfl, show (taylor 31).2 = num from rfl] at hsum
  rw [hsum, mul_div_cancel_left₀ _ hden]
  refine hbound.trans (le_of_eq ?_)
  rw [Complex.norm_I, one_pow, Nat.factorial_succ, show Nat.factorial 31 = den from rfl]
  push_cast
  ring

theorem num_unit : ‖(num : ℂ) / den‖ ≤ 1 := by
  have hden : (0 : ℝ) < den := by exact_mod_cast Nat.factorial_pos 31
  have hint : num.re * num.re + num.im * num.im ≤ (den : ℤ) * den := by decide +kernel
  have hreal : (num.re : ℝ) * num.re + num.im * num.im ≤ den * den := by exact_mod_cast hint
  rw [GaussianInt.intCast_re, GaussianInt.intCast_im, ← Complex.normSq_apply,
    Complex.normSq_eq_norm_sq] at hreal
  rw [norm_div, Complex.norm_natCast, div_le_one hden]
  exact le_of_sq_le_sq (by linarith) hden.le

theorem pow_near {z w : ℂ} (hz : ‖z‖ ≤ 1) (hw : ‖w‖ ≤ 1) (x : ℕ) :
    ‖z ^ x - w ^ x‖ ≤ x * ‖z - w‖ := by
  induction x with
  | zero => simp
  | succ x ih =>
    have hsplit : z ^ (x + 1) - w ^ (x + 1) = z * (z ^ x - w ^ x) + (z - w) * w ^ x := by ring
    have hpow : ‖w ^ x‖ ≤ 1 := by
      rw [norm_pow]
      exact pow_le_one₀ (norm_nonneg w) hw
    calc ‖z ^ (x + 1) - w ^ (x + 1)‖ ≤ ‖z‖ * ‖z ^ x - w ^ x‖ + ‖z - w‖ * ‖w ^ x‖ := by
          rw [hsplit, ← norm_mul, ← norm_mul]
          exact norm_add_le _ _
      _ ≤ 1 * (x * ‖z - w‖) + ‖z - w‖ * 1 := by gcongr
      _ = (x + 1 : ℕ) * ‖z - w‖ := by
          push_cast
          ring

/- `k` is the integer part of 2^32 |sin x|, with the error of the series on both sides. -/
def IsSine (x : ℕ) (k : Word) : Prop :=
  k.toNat * (16 * den * den ^ x) + 2 ^ 32 * x * den ^ x ≤
      2 ^ 32 * (num ^ x).im.natAbs * (16 * den) ∧
    2 ^ 32 * (num ^ x).im.natAbs * (16 * den) + 2 ^ 32 * x * den ^ x <
      (k.toNat + 1) * (16 * den * den ^ x)

instance (x : ℕ) (k : Word) : Decidable (IsSine x k) := inferInstanceAs (Decidable (_ ∧ _))

theorem isSine_floor {x : ℕ} {k : Word} (h : IsSine x k) :
    BitVec.ofNat 32 ⌊2 ^ 32 * |Real.sin x|⌋₊ = k := by
  obtain ⟨hdown, hup⟩ := h
  have hden : (0 : ℝ) < den := by exact_mod_cast Nat.factorial_pos 31
  have hexp : ‖Complex.exp Complex.I‖ ≤ 1 := by
    simpa using (Complex.norm_exp_ofReal_mul_I 1).le
  have hpow : ‖Complex.exp Complex.I ^ x - ((num : ℂ) / den) ^ x‖ ≤ x * (1 / (16 * den)) :=
    (pow_near hexp num_unit x).trans (by gcongr; exact num_near)
  have him := (Complex.abs_im_le_norm _).trans hpow
  have hsin : (Complex.exp Complex.I ^ x).im = Real.sin x := by
    rw [← Complex.exp_nat_mul]
    exact_mod_cast Complex.exp_ofReal_mul_I_im x
  have hquot : (((num : ℂ) / den) ^ x).im = (num ^ x).im / (den : ℝ) ^ x := by
    rw [div_pow, ← map_pow, GaussianInt.intCast_im]
    exact_mod_cast Complex.div_natCast_im _ (den ^ x)
  have hpos : (0 : ℝ) < 16 * den * den ^ x :=
    mul_pos (mul_pos (by norm_num) hden) (pow_pos hden x)
  rw [Complex.sub_im, hsin, hquot] at him
  have hbound := abs_le.mp ((abs_abs_sub_abs_le _ _).trans him)
  rw [abs_div, abs_of_pos (pow_pos hden x)] at hbound
  have hscale : |((num ^ x).im : ℝ)| / den ^ x * (16 * den * den ^ x) =
      |((num ^ x).im : ℝ)| * (16 * den) := by
    field_simp
  have herror : x * (1 / (16 * den)) * (16 * den * den ^ x) = (x * den ^ x : ℝ) := by
    field_simp
  have hlow := mul_le_mul_of_nonneg_right hbound.1 hpos.le
  have hhigh := mul_le_mul_of_nonneg_right hbound.2 hpos.le
  rw [sub_mul, hscale, neg_mul, herror] at hlow
  rw [sub_mul, hscale, herror] at hhigh
  have hfloor : ⌊2 ^ 32 * |Real.sin x|⌋₊ = k.toNat := by
    rw [Nat.floor_eq_iff (by positivity)]
    rify at hdown hup
    rw [← mul_le_mul_iff_left₀ hpos, ← mul_lt_mul_iff_left₀ hpos]
    constructor <;> linarith
  rw [hfloor, BitVec.ofNat_toNat, BitVec.setWidth_eq]

theorem md5K_sine : ∀ i < 64, IsSine (i + 1) (md5K.getD i 0) := by
  decide +kernel

theorem md5K_eq {i : ℕ} (h : i < 64) : md5K.getD i 0 = T i := by
  rw [T, ← isSine_floor (md5K_sine i h), Nat.cast_succ]
/-! The transform. -/

theorem leftRotate_shift (x : Word) {i : ℕ} (h : i < 64) : leftRotate x (md5S.getD i 0) =
    x.rotateLeft ((shifts.getD (i / 16) []).getD (i % 4) 0) := by
  have hshift : ∀ i < 64, md5S.getD i 0 < 32 ∧
      md5S.getD i 0 = (shifts.getD (i / 16) []).getD (i % 4) 0 := by decide
  rw [leftRotate_eq x (hshift i h).1, (hshift i h).2]

theorem md5Round_eq (X : ℕ → Word) (s : Md5State) {i : ℕ} (h : i < 64) :
    md5Round ((List.range 16).map X) s i = ⟨s.d, op X i s.a s.b s.c s.d, s.b, s.c⟩ := by
  have hk : ∀ i < 64, k.getD i 0 < 16 ∧ k.getD i 0 = if i < 16 then i
      else if i < 32 then (5 * i + 1) % 16 else if i < 48 then (3 * i + 5) % 16
      else 7 * i % 16 := by decide
  obtain ⟨hword, hindex⟩ := hk i h
  have hpair : (if i < 16 then (md5F s.b s.c s.d, i)
      else if i < 32 then (md5G s.b s.c s.d, (5 * i + 1) % 16)
      else if i < 48 then (md5H s.b s.c s.d, (3 * i + 5) % 16)
      else (md5I s.b s.c s.d, 7 * i % 16)) = (mix (i / 16) s.b s.c s.d, k.getD i 0) := by
    rw [hindex]
    have hround : i / 16 = if i < 16 then 0 else if i < 32 then 1 else if i < 48 then 2 else 3 := by
      split_ifs <;> omega
    rw [hround]
    split_ifs <;> rfl
  have hsum (f t x : Word) : f + s.a + t + x = s.a + f + x + t := by ac_rfl
  unfold md5Round op
  rw [hpair]
  dsimp only
  rw [leftRotate_shift _ h, md5K_eq h, Fips180.getD_map_range X hword, hsum]

theorem md5Rounds_eq (X : ℕ → Word) (s : Md5State) {n : ℕ} (h : n ≤ 16) :
    (List.range (4 * n)).foldl (md5Round ((List.range 16).map X)) s =
      (List.range n).foldl (row X) s := by
  induction n with
  | zero => rfl
  | succ n ih =>
    have hround (s : Md5State) {i : ℕ} (hi : i < 4 * n + 4) := md5Round_eq X s (i := i) (by omega)
    generalize md5Round ((List.range 16).map X) = f at *
    simp only [Nat.mul_succ, range_succ, foldl_append, foldl_cons, foldl_nil]
    rw [ih (by omega), hround _ (by omega), hround _ (by omega), hround _ (by omega),
      hround _ (by omega)]
    rfl

theorem leWord_take (b : Bytes) {t : ℕ} (h : t < 16) : leWord (b.take 64) t = leWord b t := by
  have hget (i : ℕ) (hi : i < 64) : (b.take 64).getD i 0 = b.getD i 0 := by
    rw [getD_eq_getElem?_getD, getD_eq_getElem?_getD, List.getElem?_take_of_lt hi]
  unfold leWord
  rw [hget (4 * t) (by omega), hget (4 * t + 1) (by omega), hget (4 * t + 2) (by omega),
    hget (4 * t + 3) (by omega)]

theorem md5Transform_eq (H : Md5State) (b : Bytes) :
    md5Transform H (b.take 64) = compress H (leWord b) := by
  have hwords : (List.range 16).map (leWord (b.take 64)) = (List.range 16).map (leWord b) :=
    map_congr_left fun t ht => leWord_take b (mem_range.mp ht)
  unfold md5Transform compress
  rw [hwords]
  dsimp only
  rw [show 64 = 4 * 16 by decide, md5Rounds_eq _ _ (le_refl 16)]

theorem hash_eq {m : Bytes} (h : m.length < 2 ^ 61) : md5Algo.hash m = md5Digest m := by
  have hpad : md5Algo.pad m = pad m := by
    rw [HashAlgo.pad, pad, zeros_eq, append_assoc m [0x80], singleton_append]
    show _ ++ (u64 (BitVec.ofNat 64 (8 * m.length)).toNat).reverse = _
    rw [bitCount_toNat h]
  rw [HashAlgo.hash, hpad, absorb_eq_foldl _ (by decide)]
  exact congrArg md5Algo.digest (Fips180.foldl_range_congr _ _ fun H i _ =>
    md5Transform_eq H ((pad m).drop (64 * i)))

end Rfc1321

namespace Sha1
open Fips180

def parity (x y z : Word) : Word := x ^^^ y ^^^ z

def f (t : ℕ) : Word → Word → Word → Word :=
  if t < 20 then ch else if t < 40 then parity else if t < 60 then maj else parity

def K (t : ℕ) : Word :=
  if t < 20 then 0x5a827999 else if t < 40 then 0x6ed9eba1 else if t < 60 then 0x8f1bbcdc
  else 0xca62c1d6

def schedule (M : ℕ → Word) (t : ℕ) : Word :=
  if t < 16 then M t
  else (schedule M (t - 3) ^^^ schedule M (t - 8) ^^^ schedule M (t - 14) ^^^
    schedule M (t - 16)).rotateLeft 1
termination_by t

def round (M : ℕ → Word) (v : Sha1State) (t : ℕ) : Sha1State :=
  let T := v.a.rotateLeft 5 + f t v.b v.c v.d + v.e + K t + schedule M t
  ⟨T, v.a, v.b.rotateLeft 30, v.c, v.d⟩

def compress (H : Sha1State) (M : ℕ → Word) : Sha1State :=
  let v := (List.range 80).foldl (round M) H
  ⟨v.a + H.a, v.b + H.b, v.c + H.c, v.d + H.d, v.e + H.e⟩

def sha1Digest (m : Bytes) : Bytes :=
  let H := (List.range ((pad m).length / 64)).foldl (fun H i => compress H (blockWords m i))
    ⟨0x67452301, 0xefcdab89, 0x98badcfe, 0x10325476, 0xc3d2e1f0⟩
  beBytes H.a ++ beBytes H.b ++ beBytes H.c ++ beBytes H.d ++ beBytes H.e

theorem schedule_next (M : ℕ → Word) {t : ℕ} (h : 16 ≤ t) :
    schedule M t = (schedule M (t - 3) ^^^ schedule M (t - 8) ^^^ schedule M (t - 14) ^^^
      schedule M (t - 16)).rotateLeft 1 := by
  rw [schedule, if_neg (Nat.not_lt.mpr h)]

theorem sha1Words_getD (block : Bytes) {t : ℕ} (h : t < 80) :
    (sha1Words (block.take 64)).getD t 0 = schedule (beWord block) t := by
  have hfirst (t : ℕ) (ht : t < 16) : beWord (block.take 64) t = schedule (beWord block) t := by
    rw [beWord_take block ht, schedule, if_pos ht]
  have hwords := words_prefix (W := schedule (beWord block))
    (fun w i => leftRotate (w (i - 3) ^^^ w (i - 8) ^^^ w (i - 14) ^^^ w (i - 16)) 1) hfirst
    (fun w t ht hw => by
      rw [hw _ (by omega), hw _ (by omega), hw _ (by omega), hw _ (by omega),
        leftRotate_eq _ (by decide), ← schedule_next _ ht]) 64
  exact (congrArg (·.getD t 0) hwords).trans (getD_map_range _ h)

theorem ch_eq (x y z : Word) : (x &&& y) ||| (~~~x &&& z) = ch x y z := by
  refine BitVec.eq_of_getLsbD_eq fun i hi => ?_
  simp only [ch, BitVec.getLsbD_or, BitVec.getLsbD_and, BitVec.getLsbD_not, BitVec.getLsbD_xor]
  cases x.getLsbD i <;> simp [hi]

theorem maj_eq (x y z : Word) : (x &&& y) ||| (x &&& z) ||| (y &&& z) = maj x y z := by
  refine BitVec.eq_of_getLsbD_eq fun i _ => ?_
  simp only [maj, BitVec.getLsbD_or, BitVec.getLsbD_and, BitVec.getLsbD_xor]
  cases x.getLsbD i <;> cases y.getLsbD i <;> cases z.getLsbD i <;> rfl

theorem sha1Round_eq (block : Bytes) (v : Sha1State) {t : ℕ} (h : t < 80) :
    sha1Round (sha1Words (block.take 64)) v t = round (beWord block) v t := by
  have hpair : (if t < 20 then ((v.b &&& v.c) ||| (~~~v.b &&& v.d), (0x5A827999 : Word))
      else if t < 40 then (v.b ^^^ v.c ^^^ v.d, 0x6ED9EBA1)
      else if t < 60 then ((v.b &&& v.c) ||| (v.b &&& v.d) ||| (v.c &&& v.d), 0x8F1BBCDC)
      else (v.b ^^^ v.c ^^^ v.d, 0xCA62C1D6)) = (f t v.b v.c v.d, K t) := by
    rw [ch_eq, maj_eq, f, K]
    split_ifs <;> rfl
  unfold sha1Round round
  rw [hpair, sha1Words_getD block h]
  dsimp only
  rw [leftRotate_eq _ (by decide), leftRotate_eq _ (by decide)]

/-- The transform is the computation of the standard on the words of the block. -/
theorem sha1Transform_eq (H : Sha1State) (b : Bytes) :
    sha1Transform H (b.take 64) = compress H (beWord b) := by
  have hrounds := foldl_range_congr 80 H fun v t ht => sha1Round_eq b v (t := t) ht
  simp only [sha1Transform, compress, hrounds, BitVec.add_comm]

theorem hash_eq {m : Bytes} (h : m.length < 2 ^ 61) : sha1Algo.hash m = sha1Digest m := by
  have hpad : sha1Algo.pad m = pad m := by
    rw [HashAlgo.pad, pad, zeros_eq, append_assoc m [0x80], singleton_append]
    show _ ++ u64 (BitVec.ofNat 64 (8 * m.length)).toNat = _
    rw [bitCount_toNat h]
  rw [HashAlgo.hash, hpad, absorb_eq_foldl _ (by decide)]
  exact congrArg sha1Algo.digest (foldl_range_congr _ _ fun H i _ =>
    sha1Transform_eq H ((pad m).drop (64 * i)))

end Sha1

theorem md5Algo_counts : md5Algo.Counts32 := ⟨fun _ _ => decide_eq_true_iff, rfl⟩

theorem sha1Algo_counts : sha1Algo.Counts32 := ⟨fun _ _ => decide_eq_true_iff, rfl⟩

/-- MD5 and SHA-1 of a message in pieces: the updates end and final gives the digest of the
standard exactly when no piece reaches 2^32 bytes with what the buffer holds in front of it. -/
theorem pieces_digest_iff (pieces : List Bytes) (h : pieces.flatten.length < 2 ^ 61) :
    ((pieces.foldlM md5Update md5Init).bind md5Final =
      some (Rfc1321.md5Digest pieces.flatten) ↔ Narrow (2 ^ 32) 0 pieces) ∧
    ((pieces.foldlM sha1Update sha1Init).bind sha1Final =
      some (Sha1.sha1Digest pieces.flatten) ↔ Narrow (2 ^ 32) 0 pieces) := by
  rw [← Rfc1321.hash_eq h, ← Sha1.hash_eq h]
  exact ⟨pieces_hash_iff md5Algo_ok md5Algo_counts pieces h,
    pieces_hash_iff sha1Algo_ok sha1Algo_counts pieces h⟩

theorem abc_digest_iff : ([lit "a", lit "bc"].foldlM md5Update md5Init).bind md5Final =
    some (Rfc1321.md5Digest (lit "abc")) ∧
    ([lit "a", lit "bc"].foldlM sha1Update sha1Init).bind sha1Final =
      some (Sha1.sha1Digest (lit "abc")) :=
  have h := pieces_digest_iff [lit "a", lit "bc"] (by decide)
  have hnarrow : Narrow (2 ^ 32) 0 [lit "a", lit "bc"] := ⟨by decide, by decide, trivial⟩
  ⟨h.1.mpr hnarrow, h.2.mpr hnarrow⟩

/-- One piece of 2^32 bytes: the update does not come to its end. -/
theorem four_gigabytes_missed : ¬ ∀ pieces : List Bytes, pieces.flatten.length < 2 ^ 61 →
      (pieces.foldlM md5Update md5Init).bind md5Final = some (Rfc1321.md5Digest pieces.flatten) ∧
      (pieces.foldlM sha1Update sha1Init).bind sha1Final =
        some (Sha1.sha1Digest pieces.flatten) := by
  intro hall
  obtain ⟨zeros, hlen⟩ : ∃ zeros : Bytes, zeros.length = 2 ^ 32 :=
    ⟨List.replicate (2 ^ 32) 0, length_replicate⟩
  have hnone : md5Update md5Init zeros = none :=
    hashUpdate_none md5Algo_counts (hashInit_holds md5Algo) (by rw [hlen]; exact Nat.le_add_left _ _)
  have hdigest := (hall [zeros] (by rw [flatten_singleton, hlen]; norm_num)).1
  rw [foldlM_cons, hnone] at hdigest
  exact absurd hdigest (by simp)

end Voxlib.Crypto
