import Voxlib.Crypto.Base64Trip

/-!
# What the Base64 decoders write (vox_crypto.c:843-1047)

A run is the list of the bytes written and whether the call succeeds.
-/

namespace Voxlib.Crypto
open CStr List Option

/- The loop over complete groups: the bytes written and, when all is valid, what is left. -/
def groupsRun (value : UInt8 → Option ℕ) : Bytes → Bytes × Option Bytes
  | a :: b :: c :: d :: rest =>
    match value a, value b, value c, value d with
    | some v1, some v2, some v3, some v4 =>
      let r := groupsRun value rest
      (firstByte v1 v2 :: secondByte v2 v3 :: thirdByte v3 v4 :: r.1, r.2)
    | _, _, _, _ => ([], none)
  | left => ([], some left)

def padding (text : Bytes) : ℕ :=
  (if text[text.length - 1]? = some 61 then 1 else 0) +
    (if 1 < text.length ∧ text[text.length - 2]? = some 61 then 1 else 0)

def trim (encoded : Bytes) : Bytes := (encoded.reverse.dropWhile isBlank).reverse

/- The padded rest (vox_crypto.c:883-899), padding characters included. -/
def restRun (tail : Bytes) (third : Bool) : Bytes × Bool :=
  match sextet (tail.headD 0), tail[1]?.bind sextet with
  | some v1, some v2 =>
    if third ∧ 2 < tail.length then
      match sextet (tail.getD 2 0) with
      | some v3 => ([firstByte v1 v2, secondByte v2 v3], true)
      | none => ([firstByte v1 v2], false)
    else ([firstByte v1 v2], true)
  | _, _ => ([], false)

/-- vox_base64_decode with what it writes. -/
def base64DecodeRun (encoded : Bytes) (outputSize : ℕ) : Bytes × Bool :=
  let text := trim encoded
  if encoded.length = 0 ∨ text.length = 0 then ([], true)
  else if outputSize < (text.length * 3 / 4 + 2 ^ 64 - padding text) % 2 ^ 64 then ([], false)
  else
    let cut := text.length - padding text
    match groupsRun sextet (text.take cut) with
    | (out, none) => (out, false)
    | (out, some left) =>
      if 0 < padding text ∧ left.length + padding text ≠ 0 then
        let r := restRun (left ++ text.drop cut) (padding text = 1)
        (out ++ r.1, r.2)
      else (out, left.length = 0)

theorem decodeGroups_run (l : Bytes) : decodeGroups l =
    (groupsRun sextet l).2.map fun left => (left, (groupsRun sextet l).1) := by
  fun_induction groupsRun sextet l with
  | case1 a b c d rest v1 v2 v3 v4 h1 h2 h3 h4 r ih =>
    rw [decodeGroups, h1, h2, h3, h4, ih]
    cases h : r.2 <;> simp [r] at h ⊢
  | case2 a b c d rest hnone =>
    rw [decodeGroups]
    cases h1 : sextet a <;> cases h2 : sextet b <;> cases h3 : sextet c <;>
      cases h4 : sextet d <;> first | rfl | exact absurd h4 (hnone _ _ _ _ h1 h2 h3)
  | case3 left hshort =>
    obtain _ | ⟨a, _ | ⟨b, _ | ⟨c, _ | ⟨d, rest⟩⟩⟩⟩ := left
    iterate 4 rfl
    exact absurd rfl (hshort a b c d rest)

theorem bind_sextet (o : Option UInt8) (k : ℕ → Option Bytes) : (o.bind sextet).bind k =
    match o with
    | some c => (sextet c).bind k
    | none => none := by cases o <;> rfl

/-- The run is that of the decoder. -/
theorem base64DecodeRun_eq (encoded : Bytes) (outputSize : ℕ) : base64Decode encoded outputSize =
    if (base64DecodeRun encoded outputSize).2 then some (base64DecodeRun encoded outputSize).1
    else none := by
  have hdecode : base64Decode encoded outputSize = if encoded.length = 0 then some []
      else if (trim encoded).length = 0 then some []
      else if outputSize < ((trim encoded).length * 3 / 4 + 2 ^ 64 - padding (trim encoded)) % 2 ^ 64
        then none
      else (decodeGroups ((trim encoded).take ((trim encoded).length - padding (trim encoded)))).bind
        fun r =>
          if 0 < padding (trim encoded) ∧ r.1.length + padding (trim encoded) ≠ 0 then
            let tail := r.1 ++ (trim encoded).drop ((trim encoded).length - padding (trim encoded))
            (sextet (tail.headD 0)).bind fun v1 => (tail[1]?.bind sextet).bind fun v2 =>
              if padding (trim encoded) = 1 ∧ 2 < tail.length then
                (sextet (tail.getD 2 0)).bind fun v3 =>
                  some (r.2 ++ [firstByte v1 v2, secondByte v2 v3])
              else some (r.2 ++ [firstByte v1 v2])
          else if r.1.length ≠ 0 then none else some r.2 := by
    simp only [bind_sextet]
    rfl
  rw [hdecode, base64DecodeRun]
  generalize trim encoded = text
  generalize padding text = p
  by_cases hnil : encoded.length = 0
  · simp [hnil]
  by_cases hblank : text.length = 0
  · simp [hnil, hblank]
  rw [if_neg hnil, if_neg hblank]
  dsimp only
  rw [if_neg (not_or.mpr ⟨hnil, hblank⟩), decodeGroups_run]
  by_cases hroom : outputSize < (text.length * 3 / 4 + 2 ^ 64 - p) % 2 ^ 64
  · rw [if_pos hroom, if_pos hroom]
    rfl
  rw [if_neg hroom, if_neg hroom]
  rcases groupsRun sextet (text.take (text.length - p)) with ⟨out, _ | left⟩
  · rfl
  simp only [map_some, bind_some]
  by_cases hrest : 0 < p ∧ left.length + p ≠ 0
  · simp only [if_pos hrest, restRun]
    generalize left ++ text.drop (text.length - p) = tail
    rcases sextet (tail.headD 0) with _ | v1
    · rfl
    rcases tail[1]?.bind sextet with _ | v2
    · rfl
    by_cases hthird : p = 1 ∧ 2 < tail.length
    · simp only [bind_some, if_pos hthird, decide_eq_true_eq]
      cases sextet (tail.getD 2 0) <;> rfl
    · simp [hthird]
  · rw [if_neg hrest, if_neg hrest]
    by_cases hzero : left.length = 0 <;> simp [hzero]

/- base64url_char_table, with '+' and '/' (base64url_char_value); '=' and the rest are negative. -/
def urlSextet (c : UInt8) : Option ℕ :=
  if c = 45 then some 62
  else if c = 95 then some 63
  else sextet c

def urlChar (v : ℕ) : UInt8 := if v = 62 then 45 else if v = 63 then 95 else base64Char v

/- The loop over the groups of three bytes and the rest (vox_crypto.c:938-955). -/
def encodeUrlGroups : Bytes → Bytes
  | a :: b :: c :: rest =>
    urlChar (a.toNat >>> 2 &&& 0x3F) ::
      urlChar ((a.toNat &&& 0x3) <<< 4 ||| (b.toNat &&& 0xF0) >>> 4) ::
      urlChar ((b.toNat &&& 0xF) <<< 2 ||| (c.toNat &&& 0xC0) >>> 6) ::
      urlChar (c.toNat &&& 0x3F) :: encodeUrlGroups rest
  | [a, b] =>
    [urlChar (a.toNat >>> 2 &&& 0x3F),
      urlChar ((a.toNat &&& 0x3) <<< 4 ||| (b.toNat &&& 0xF0) >>> 4),
      urlChar ((b.toNat &&& 0xF) <<< 2)]
  | [a] => [urlChar (a.toNat >>> 2 &&& 0x3F), urlChar ((a.toNat &&& 0x3) <<< 4)]
  | [] => []

/-- vox_base64url_encode: what it returns and the output with its terminator. -/
def encodeUrlCall (data : Bytes) (outputSize : ℕ) : Written :=
  if data.length = 0 then if outputSize < 1 then ⟨-1, []⟩ else ⟨0, [0]⟩
  else if outputSize < (data.length + 2) / 3 * 4 + 1 then ⟨-1, []⟩
  else ⟨toInt (encodeUrlGroups data).length, encodeUrlGroups data ++ [0]⟩

/- The characters behind the groups and in front of the padding (vox_crypto.c:1013-1043). -/
def restUrlRun : Bytes → Bytes × Bool
  | [] => ([], true)
  | [_] => ([], false)
  | c1 :: c2 :: rest =>
    match urlSextet c1, urlSextet c2 with
    | some v1, some v2 =>
      match rest with
      | [] => ([firstByte v1 v2], true)
      | c3 :: _ =>
        match urlSextet c3 with
        | some v3 => ([firstByte v1 v2, secondByte v2 v3], true)
        | none => ([firstByte v1 v2], false)
    | _, _ => ([], false)

/- `output_len`, nothing when a single character is left over (vox_crypto.c:972-988). -/
def urlRoom (text : Bytes) : Option ℕ :=
  if padding text = 0 then
    if text.length % 4 = 0 then some (text.length * 3 / 4)
    else if text.length % 4 = 1 then none
    else if text.length % 4 = 2 then some (text.length * 3 / 4 + 1)
    else some (text.length * 3 / 4 + 2)
  else some ((text.length * 3 / 4 + 2 ^ 64 - padding text) % 2 ^ 64)

/-- vox_base64url_decode with what it writes. -/
def base64urlDecodeRun (text : Bytes) (outputSize : ℕ) : Bytes × Bool :=
  if text.length = 0 then ([], true)
  else
    match urlRoom text with
    | none => ([], false)
    | some outputLen =>
      if outputSize < outputLen then ([], false)
      else
        match groupsRun urlSextet (text.take (text.length - padding text)) with
        | (out, none) => (out, false)
        | (out, some left) =>
          let r := restUrlRun left
          (out ++ r.1, r.2)

def decodeUrlCall (buffer : Bytes) (outputSize : ℕ) : Written :=
  let r := base64urlDecodeRun (cstr buffer) outputSize
  if r.2 then ⟨toInt r.1.length, r.1⟩ else ⟨-1, r.1⟩

theorem groupsRun_cases (value : UInt8 → Option ℕ) (l : Bytes) :
    ((∀ c ∈ l.take (l.length / 4 * 4), (value c).isSome) ∧
      ∃ out, groupsRun value l = (out, some (l.drop (l.length / 4 * 4))) ∧
        out.length = l.length / 4 * 3) ∨ (¬ (∀ c ∈ l.take (l.length / 4 * 4), (value c).isSome) ∧
      ∃ out, groupsRun value l = (out, none) ∧ out.length + 3 ≤ l.length / 4 * 3) := by
  fun_induction groupsRun value l with
  | case1 a b c d rest v1 v2 v3 v4 h1 h2 h3 h4 r ih =>
    have hlen : (a :: b :: c :: d :: rest).length / 4 = rest.length / 4 + 1 := by
      simp only [length_cons]
      omega
    have hmul : (rest.length / 4 + 1) * 4 = rest.length / 4 * 4 + 1 + 1 + 1 + 1 := by omega
    rw [hlen, hmul]
    simp only [take_succ_cons, drop_succ_cons, forall_mem_cons, h1, h2, h3, h4,
      isSome_some, true_and]
    rcases ih with ⟨hvalid, out, hout, hcount⟩ | ⟨hinvalid, out, hout, hcount⟩
    · exact .inl ⟨hvalid, _, by rw [show r = _ from hout], by simp only [length_cons]; omega⟩
    · exact .inr ⟨hinvalid, _, by rw [show r = _ from hout], by simp only [length_cons]; omega⟩
  | case2 a b c d rest hnone =>
    refine .inr ⟨fun hvalid => ?_, [], rfl, by simp only [length_cons, length_nil]; omega⟩
    have hmul : (a :: b :: c :: d :: rest).length / 4 * 4 =
        rest.length / 4 * 4 + 1 + 1 + 1 + 1 := by
      simp only [length_cons]
      omega
    rw [hmul] at hvalid
    simp only [take_succ_cons, forall_mem_cons] at hvalid
    obtain ⟨h1, h2, h3, h4, -⟩ := hvalid
    exact hnone _ _ _ _ (some_get h1).symm (some_get h2).symm
      (some_get h3).symm (some_get h4).symm
  | case3 left hshort =>
    have hzero : left.length / 4 = 0 := by
      rcases left with _ | ⟨a, _ | ⟨b, _ | ⟨c, _ | ⟨d, rest⟩⟩⟩⟩
      · simp
      · simp
      · simp
      · simp
      · exact absurd rfl (hshort a b c d rest)
    rw [hzero]
    exact .inl ⟨by simp, [], rfl, rfl⟩

/-- Whole groups of the alphabet with nothing but padding behind them, and one byte less room than
the groups give. -/
def Tight (value : UInt8 → Option ℕ) (text : Bytes) (outputSize : ℕ) : Prop :=
  0 < padding text ∧ (text.length - padding text) % 4 = 0 ∧
    outputSize + 1 = (text.length - padding text) / 4 * 3 ∧
    ∀ c ∈ text.take (text.length - padding text), (value c).isSome

/-- Three characters more in front of two padding characters, and one byte less room than all of
them give. -/
def TightRest (text : Bytes) (outputSize : ℕ) : Prop :=
  padding text = 2 ∧ (text.length - 2) % 4 = 3 ∧ outputSize = (text.length - 2) / 4 * 3 + 1 ∧
    ∀ c ∈ text.take (text.length - 2), (urlSextet c).isSome

/- The rest is written as far as there are characters of the alphabet, not padding. -/
theorem restRun_writes (tail : Bytes) (third : Bool) : (restRun tail third).1.length ≤ 2 ∧
    (0 < (restRun tail third).1.length → tail[0]? ≠ some 61 ∧ tail[1]?.isSome ∧ tail[1]? ≠ some 61) ∧
    (1 < (restRun tail third).1.length → third ∧ tail[2]? ≠ some 61) := by
  have hne {c : UInt8} {v : ℕ} (h : sextet c = some v) : c ≠ 61 := by
    rintro rfl
    revert h
    decide +revert
  rcases tail with _ | ⟨a, _ | ⟨b, rest⟩⟩
  · exact ⟨by decide +revert, by decide +revert, by decide +revert⟩
  · cases h : sextet a <;> simp [restRun, h]
  · cases h1 : sextet a with
    | none => simp [restRun, h1]
    | some v1 =>
      cases h2 : sextet b with
      | none => simp [restRun, h1, h2]
      | some v2 =>
        have hfirst := hne h1
        have hsecond := hne h2
        cases rest with
        | nil => simpa [restRun, h1, h2] using ⟨hfirst, hsecond⟩
        | cons c rest =>
          cases third with
          | false => simpa [restRun, h1, h2] using ⟨hfirst, hsecond⟩
          | true =>
            cases h3 : sextet c with
            | none => simpa [restRun, h1, h2, h3] using ⟨hfirst, hsecond⟩
            | some v3 =>
              have hthird := hne h3
              simpa [restRun, h1, h2, h3] using ⟨⟨hfirst, hsecond⟩, hthird⟩

theorem room_eq {x p : ℕ} (hx : x < 2 ^ 64) (hp : p ≤ x) : (x + 2 ^ 64 - p) % 2 ^ 64 = x - p := by
  have hsum : x + 2 ^ 64 - p = x - p + 2 ^ 64 := by omega
  rw [hsum, Nat.add_mod_right, Nat.mod_eq_of_lt (by omega)]

theorem room_le {x p outputSize : ℕ} (hx : x < 2 ^ 64)
    (h : ¬ outputSize < (x + 2 ^ 64 - p) % 2 ^ 64) : x ≤ outputSize + p := by
  by_cases hp : x < p
  · omega
  · rw [room_eq hx (Nat.not_lt.mp hp)] at h
    omega

theorem padding_le (text : Bytes) : padding text ≤ 2 := by
  unfold padding
  split_ifs <;> omega

theorem base64_writes_iff (encoded : Bytes) (outputSize : ℕ) (h : encoded.length * 3 < 2 ^ 64) :
    (base64DecodeRun encoded outputSize).1.length ≤ outputSize ↔
      ¬ Tight sextet (trim encoded) outputSize := by
  have hlen : (trim encoded).length ≤ encoded.length := by
    have hsub := (dropWhile_sublist isBlank (l := encoded.reverse)).length_le
    rw [trim, length_reverse]
    rwa [length_reverse] at hsub
  rw [base64DecodeRun]
  generalize trim encoded = text at hlen ⊢
  have hroom := padding_le text
  have hpads : (0 < padding text → text[text.length - 1]? = some 61 ∨
      1 < text.length ∧ text[text.length - 2]? = some 61) ∧
      (padding text = 2 → text[text.length - 2]? = some 61) := by
    unfold padding
    split_ifs <;> simp_all
  rw [Tight]
  generalize padding text = p at hroom hpads ⊢
  by_cases hnil : encoded.length = 0 ∨ text.length = 0
  · rw [if_pos hnil]
    have hzero : text.length = 0 := by omega
    simp only [length_nil, Nat.zero_le, true_iff]
    omega
  rw [if_neg hnil]
  dsimp only
  by_cases hsize : outputSize < (text.length * 3 / 4 + 2 ^ 64 - p) % 2 ^ 64
  · rw [if_pos hsize]
    simp only [length_nil, Nat.zero_le, true_iff]
    omega
  rw [if_neg hsize]
  have hneed := room_le (by omega) hsize
  clear hsize
  have hcut : (text.take (text.length - p)).length = text.length - p :=
    length_take_of_le (Nat.sub_le _ _)
  have hgroups := groupsRun_cases sextet (text.take (text.length - p))
  rw [hcut] at hgroups
  rcases hgroups with ⟨hvalid, out, hrun, hout⟩ | ⟨hinvalid, out, hrun, hout⟩
  · -- the tail begins behind the groups
    have htail : (text.take (text.length - p)).drop ((text.length - p) / 4 * 4) ++
        text.drop (text.length - p) = text.drop ((text.length - p) / 4 * 4) := by
      rw [← drop_append_of_le_length (by omega), take_append_drop]
    rw [hrun]
    dsimp only
    rw [htail]
    obtain ⟨htwo, hfirst, hsecond⟩ :=
      restRun_writes (text.drop ((text.length - p) / 4 * 4)) (p = 1)
    generalize restRun (text.drop ((text.length - p) / 4 * 4)) (p = 1) = r at htwo hfirst hsecond ⊢
    simp only [List.getElem?_drop, Nat.add_zero, decide_eq_true_eq] at hfirst hsecond
    have hwrites : 0 < p → r.1.length = 0 ∨
        (text.length - p) % 4 ≠ 0 ∧ (text.length - p) / 4 * 3 + r.1.length ≤ outputSize := by
      intro hpos
      by_contra hno
      have hw : 0 < r.1.length := by omega
      obtain ⟨hzero, hsome, hone⟩ := hfirst hw
      have hin : (text.length - p) / 4 * 4 + 1 < text.length := by simpa using hsome
      -- a padding character at one of the first places of the tail
      have hat (i j : ℕ) (hend : text[i]? = some 61) (hij : i = (text.length - p) / 4 * 4 + j) :
          text[(text.length - p) / 4 * 4 + j]? = some 61 := hij ▸ hend
      have hnotZero (i : ℕ) (hend : text[i]? = some 61) : i ≠ (text.length - p) / 4 * 4 :=
        fun hi => hzero (hat i 0 hend hi)
      have hnotOne (i : ℕ) (hend : text[i]? = some 61) : i ≠ (text.length - p) / 4 * 4 + 1 :=
        fun hi => hone (hat i 1 hend hi)
      have hnotTwo (i : ℕ) (hend : text[i]? = some 61) (hw : 1 < r.1.length) :
          i ≠ (text.length - p) / 4 * 4 + 2 := fun hi => (hsecond hw).2 (hat i 2 hend hi)
      obtain rfl | rfl : p = 1 ∨ p = 2 := by omega
      · rcases hpads.1 hpos with hend | ⟨-, hend⟩
        · have htwoth := hnotTwo _ hend
          have honeth := hnotOne _ hend
          omega
        · have honeth := hnotOne _ hend
          have hzeroth := hnotZero _ hend
          omega
      · have honeth := hnotOne _ (hpads.2 rfl)
        have hzeroth := hnotZero _ (hpads.2 rfl)
        omega
    have hall (hmod : (text.length - p) % 4 = 0) :
        ∀ c ∈ text.take (text.length - p), (sextet c).isSome := by
      rwa [take_of_length_le (by omega)] at hvalid
    split_ifs with hpos
    · rw [length_append, hout]
      have hcases := hwrites hpos.1
      constructor
      · rintro hle ⟨-, -, hsmall, -⟩
        omega
      · intro hnot
        by_contra hlong
        exact hnot ⟨hpos.1, by omega, by omega, hall (by omega)⟩
    · rw [hout]
      have hzero : p = 0 := by omega
      exact iff_of_true (by omega) fun h => by omega
  · rw [hrun]
    dsimp only
    have hnot : (text.length - p) % 4 = 0 → ¬ ∀ c ∈ text.take (text.length - p),
        (sextet c).isSome := by
      intro hmod hall
      exact hinvalid fun c hc => hall c (mem_of_mem_take hc)
    constructor
    · rintro - ⟨-, hmod, -, hall⟩
      exact hnot hmod hall
    · intro _
      omega

theorem restUrlRun_writes {left : Bytes} (h : left.length < 4) :
    (restUrlRun left).1.length ≤ left.length - 1 ∧
    (left.length = 3 → ((restUrlRun left).1.length = 2 ↔ ∀ c ∈ left, (urlSextet c).isSome)) := by
  rcases left with _ | ⟨a, _ | ⟨b, _ | ⟨c, _ | ⟨d, rest⟩⟩⟩⟩
  · simp [restUrlRun]
  · simp [restUrlRun]
  · cases h1 : urlSextet a <;> cases h2 : urlSextet b <;> simp [restUrlRun, h1, h2]
  · cases h1 : urlSextet a <;> cases h2 : urlSextet b <;> cases h3 : urlSextet c <;>
      simp [restUrlRun, h1, h2, h3]
  · simp only [length_cons] at h
    omega

theorem urlWrites_cases {len p w outputSize : ℕ} (hp : p ≤ 2) (hneed : len * 3 / 4 ≤ outputSize + p)
    (hw : w ≤ (len - p) % 4 - 1) : (len - p) / 4 * 3 + w ≤ outputSize ∨
    (0 < p ∧ (len - p) % 4 = 0 ∧ outputSize + 1 = (len - p) / 4 * 3) ∨
    (p = 2 ∧ (len - p) % 4 = 3 ∧ outputSize = (len - p) / 4 * 3 + 1 ∧ w = 2) := by
  obtain rfl | rfl | rfl : p = 0 ∨ p = 1 ∨ p = 2 := by omega
  · omega
  · omega
  · omega

theorem base64url_writes_iff (text : Bytes) (outputSize : ℕ) (h : text.length * 3 < 2 ^ 64) :
    (base64urlDecodeRun text outputSize).1.length ≤ outputSize ↔
      ¬ (Tight urlSextet text outputSize ∨ TightRest text outputSize) := by
  have hroom := padding_le text
  rw [base64urlDecodeRun, urlRoom, Tight, TightRest]
  generalize padding text = p at hroom ⊢
  by_cases hnil : text.length = 0
  · rw [if_pos hnil]
    exact iff_of_true (Nat.zero_le _) (by omega)
  rw [if_neg hnil]
  split
  · next hnone =>
    have hp : p = 0 := by
      by_contra hp
      rw [if_neg hp] at hnone
      cases hnone
    exact iff_of_true (Nat.zero_le _) (by omega)
  · next room hsome =>
    by_cases hsize : outputSize < room
    · rw [if_pos hsize]
      refine iff_of_true (Nat.zero_le _) ?_
      by_cases hp : p = 0
      · omega
      · rw [if_neg hp] at hsome
        cases hsome
        by_cases hsmall : p ≤ text.length * 3 / 4
        · rw [room_eq (by omega) hsmall] at hsize
          omega
        · omega
    · have hneed : text.length * 3 / 4 ≤ outputSize + p := by
        split_ifs at hsome
        · cases hsome
          omega
        · cases hsome
          omega
        · cases hsome
          omega
        · cases hsome
          exact room_le (by omega) hsize
      rw [if_neg hsize]
      clear hsome hsize
      have hcut : (text.take (text.length - p)).length = text.length - p :=
        length_take_of_le (Nat.sub_le _ _)
      have hleft : ((text.take (text.length - p)).drop ((text.length - p) / 4 * 4)).length =
          (text.length - p) % 4 := by
        rw [length_drop, hcut]
        omega
      obtain ⟨hfew, hthree⟩ := @restUrlRun_writes ((text.take (text.length - p)).drop
        ((text.length - p) / 4 * 4)) (by omega)
      rw [hleft] at hfew
      have hsplit := @List.forall_mem_append _ (fun c => (urlSextet c).isSome = true)
        ((text.take (text.length - p)).take ((text.length - p) / 4 * 4))
        ((text.take (text.length - p)).drop ((text.length - p) / 4 * 4))
      rw [take_append_drop] at hsplit
      have hgroups := groupsRun_cases urlSextet (text.take (text.length - p))
      rw [hcut] at hgroups
      generalize (text.take (text.length - p)).drop ((text.length - p) / 4 * 4) = left at *
      rcases hgroups with ⟨hvalid, out, hrun, hout⟩ | ⟨hinvalid, out, hrun, hout⟩
      · rw [hrun]
        dsimp only
        have hwrites := urlWrites_cases hroom hneed hfew
        rw [length_append, hout]
        constructor
        · rintro hle (⟨-, -, hsmall, -⟩ | ⟨rfl, hmod, hsmall, hall⟩)
          · omega
          · have htwo := (hthree (hleft.trans hmod)).mpr (hsplit.mp hall).2
            omega
        · intro hnot
          rcases hwrites with hle | ⟨hpos, hmod, hsmall⟩ | ⟨rfl, hmod, hsmall, htwo⟩
          · exact hle
          · have hnil := eq_nil_of_length_eq_zero (hleft.trans hmod)
            rw [hnil] at hsplit
            exact absurd (.inl ⟨hpos, hmod, hsmall, hsplit.mpr ⟨hvalid, nofun⟩⟩) hnot
          · have hrest := (hthree (hleft.trans hmod)).mp htwo
            exact absurd (.inr ⟨rfl, hmod, hsmall, hsplit.mpr ⟨hvalid, hrest⟩⟩) hnot
      · rw [hrun]
        refine iff_of_true (by dsimp only; omega) ?_
        rintro (⟨-, -, -, hall⟩ | ⟨rfl, -, -, hall⟩)
        · exact hinvalid (hsplit.mp hall).1
        · exact hinvalid (hsplit.mp hall).1

theorem urlChar_read {v : ℕ} (h : v < 64) :
    urlSextet (urlChar v) = some v ∧ urlChar v ≠ 61 ∧ urlChar v ≠ 0 := by
  have hall : ∀ n : Fin 64, urlSextet (urlChar n) = some n.val ∧ urlChar n ≠ 61 ∧ urlChar n ≠ 0 := by
    decide
  exact hall ⟨v, h⟩

theorem and_192 (c : UInt8) : (c.toNat &&& 0xC0) >>> 6 = c.toNat / 64 := by
  have hc : c.toNat < 256 := c.toNat_lt
  rw [Nat.shiftRight_and_distrib, show 0xC0 >>> 6 = 0x3 from rfl, and_3, Nat.shiftRight_eq_div_pow]
  omega

theorem secondValue_eq (a b : UInt8) : (a.toNat &&& 0x3) <<< 4 ||| (b.toNat &&& 0xF0) >>> 4 =
    a.toNat % 4 * 16 + b.toNat / 16 := by
  have hb : b.toNat < 256 := b.toNat_lt
  rw [and_240, shiftLeft_or (by omega), and_3]
  rfl

theorem thirdValue_eq (b c : UInt8) : (b.toNat &&& 0xF) <<< 2 ||| (c.toNat &&& 0xC0) >>> 6 =
    b.toNat % 16 * 4 + c.toNat / 64 := by
  have hc : c.toNat < 256 := c.toNat_lt
  rw [and_192, shiftLeft_or (by omega), and_15]
  rfl

variable (x : Bytes)

theorem encodeUrlGroups_length : (encodeUrlGroups x).length =
    x.length / 3 * 4 + if x.length % 3 = 0 then 0 else x.length % 3 + 1 := by
  fun_induction encodeUrlGroups x with
  | case1 a b c x ih =>
    simp only [length_cons, ih]
    split_ifs <;> omega
  | case2 a b => simp
  | case3 a => simp
  | case4 => rfl

theorem encodeUrlGroups_chars : ∀ c ∈ encodeUrlGroups x, ∃ v < 64, c = urlChar v := by
  have hfour {n : ℕ} (h : n < 4) : n <<< 4 < 64 := by
    rw [Nat.shiftLeft_eq]
    omega
  have htwo {n : ℕ} (h : n < 16) : n <<< 2 < 64 := by
    rw [Nat.shiftLeft_eq]
    omega
  have hthree (n : ℕ) : n &&& 3 < 4 := Nat.and_lt_two_pow (n := 2) n (by decide)
  have hfifteen (n : ℕ) : n &&& 15 < 16 := Nat.and_lt_two_pow (n := 4) n (by decide)
  have hsecond (a b : UInt8) : (a.toNat &&& 0x3) <<< 4 ||| (b.toNat &&& 0xF0) >>> 4 < 64 := by
    have hb : b.toNat < 256 := b.toNat_lt
    rw [secondValue_eq]
    omega
  have hthird (b c : UInt8) : (b.toNat &&& 0xF) <<< 2 ||| (c.toNat &&& 0xC0) >>> 6 < 64 := by
    have hc : c.toNat < 256 := c.toNat_lt
    rw [thirdValue_eq]
    omega
  fun_induction encodeUrlGroups x with
  | case1 a b c x ih =>
    simp only [forall_mem_cons]
    exact ⟨⟨_, and_63_lt _, rfl⟩, ⟨_, hsecond a b, rfl⟩, ⟨_, hthird b c, rfl⟩,
      ⟨_, and_63_lt _, rfl⟩, ih⟩
  | case2 a b =>
    simp only [forall_mem_cons]
    exact ⟨⟨_, and_63_lt _, rfl⟩, ⟨_, hsecond a b, rfl⟩, ⟨_, htwo (hfifteen _), rfl⟩, nofun⟩
  | case3 a =>
    simp only [forall_mem_cons]
    exact ⟨⟨_, and_63_lt _, rfl⟩, ⟨_, hfour (hthree _), rfl⟩, nofun⟩
  | case4 => exact nofun

theorem groupsRun_url (h : x.length % 3 = 0) :
    groupsRun urlSextet (encodeUrlGroups x) = (x, some []) := by
  fun_induction encodeUrlGroups x with
  | case1 a b c x ih =>
    have ha : a.toNat < 256 := a.toNat_lt
    have hb : b.toNat < 256 := b.toNat_lt
    have hc : c.toNat < 256 := c.toNat_lt
    have hrest := ih (by simp only [length_cons] at h; omega)
    rw [secondValue_eq, thirdValue_eq, and_63, and_63, Nat.shiftRight_eq_div_pow]
    simp only [groupsRun, (urlChar_read (show a.toNat / 2 ^ 2 % 64 < 64 by omega)).1,
      (urlChar_read (show a.toNat % 4 * 16 + b.toNat / 16 < 64 by omega)).1,
      (urlChar_read (show b.toNat % 16 * 4 + c.toNat / 64 < 64 by omega)).1,
      (urlChar_read (show c.toNat % 64 < 64 by omega)).1, hrest]
    rw [firstByte_eq (by omega), secondByte_eq (by omega), thirdByte_eq (by omega)]
    congr 1
    refine congrArg₂ _ (ofNat_of_eq (by omega)) (congrArg₂ _ (ofNat_of_eq (by omega))
      (congrArg₂ _ (ofNat_of_eq (by omega)) rfl))
  | case2 a b => simp at h
  | case3 a => simp at h
  | case4 => rfl

/-- What base64url_encode writes of `x` is read back into `x.length` bytes of room. -/
def UrlTrips (x : Bytes) : Prop := ∀ encodedSize, (x.length + 2) / 3 * 4 + 1 ≤ encodedSize →
  decodeUrlCall (encodeUrlCall x encodedSize).output x.length = ⟨x.length, x⟩

theorem urlTrips_iff : UrlTrips x ↔ x.length % 3 = 0 ∧ x.length < 2 ^ 31 := by
  have hencode (n : ℕ) (hn : (x.length + 2) / 3 * 4 + 1 ≤ n) :
      (encodeUrlCall x n).output = encodeUrlGroups x ++ [0] := by
    rw [encodeUrlCall]
    split_ifs with hnil
    · omega
    · rw [eq_nil_of_length_eq_zero hnil]
      rfl
    · omega
    · rfl
  have hchars := encodeUrlGroups_chars x
  have hcstr : cstr (encodeUrlGroups x ++ [0]) = encodeUrlGroups x := cstr_terminated fun c hc => by
    obtain ⟨v, hv, rfl⟩ := hchars c hc
    exact (urlChar_read hv).2.2
  have hnone (i : ℕ) : (encodeUrlGroups x)[i]? ≠ some 61 := by
    intro hi
    obtain ⟨v, hv, hc⟩ := hchars 61 (mem_of_getElem? hi)
    exact (urlChar_read hv).2.1 hc.symm
  have hpad : padding (encodeUrlGroups x) = 0 := by simp [padding, hnone]
  have hlen := encodeUrlGroups_length x
  have htrip : UrlTrips x ↔ decodeUrlCall (encodeUrlGroups x ++ [0]) x.length = ⟨x.length, x⟩ := by
    constructor
    · intro h
      have hall := h _ (le_refl _)
      rwa [hencode _ (le_refl _)] at hall
    · intro h n hn
      rwa [hencode n hn]
  rw [htrip, decodeUrlCall, hcstr]
  have hint : toInt x.length = x.length ↔ x.length < 2 ^ 31 := by
    rw [toInt]
    split_ifs <;> omega
  have hequal (r : ℤ) : (⟨r, x⟩ : Written) = ⟨x.length, x⟩ ↔ r = x.length := by simp
  by_cases hmod : x.length % 3 = 0
  · have hrun : base64urlDecodeRun (encodeUrlGroups x) x.length = (x, true) := by
      rw [if_pos hmod] at hlen
      by_cases hnil : x.length = 0
      · rw [eq_nil_of_length_eq_zero hnil]
        rfl
      have hroom : (encodeUrlGroups x).length * 3 / 4 = x.length := by omega
      rw [base64urlDecodeRun, urlRoom, hpad, if_neg (by omega), if_pos rfl, if_pos (by omega)]
      dsimp only
      rw [if_neg (by omega), Nat.sub_zero, take_length, groupsRun_url x hmod]
      simp only [restUrlRun, append_nil]
    rw [hrun]
    simp only [if_true, hequal, hint, hmod, true_and]
  · have hrun : base64urlDecodeRun (encodeUrlGroups x) x.length = ([], false) := by
      rw [if_neg hmod] at hlen
      rw [base64urlDecodeRun, urlRoom, hpad, if_neg (by omega), if_pos rfl, if_neg (by omega),
        if_neg (by omega)]
      split_ifs
      · exact if_pos (by omega)
      · exact if_pos (by omega)
    rw [hrun]
    refine iff_of_false (fun h => ?_) fun h => hmod h.1
    have hret := congrArg Written.ret h
    simp only [Bool.false_eq_true, if_false] at hret
    omega

/-- The decoders write within the buffer except in the tight cases, and the bytes are read back
exactly when they are whole groups of three and an `int` can count them. -/
theorem base64_bounds_iff (text x : Bytes) (outputSize : ℕ) (h : text.length * 3 < 2 ^ 64) :
    ((base64DecodeRun text outputSize).1.length ≤ outputSize ↔
      ¬ Tight sextet (trim text) outputSize) ∧
    ((base64urlDecodeRun text outputSize).1.length ≤ outputSize ↔
      ¬ (Tight urlSextet text outputSize ∨ TightRest text outputSize)) ∧
    (UrlTrips x ↔ x.length % 3 = 0 ∧ x.length < 2 ^ 31) :=
  ⟨base64_writes_iff text outputSize h, base64url_writes_iff text outputSize h, urlTrips_iff x⟩

theorem base64_bounds_abcd :
    ((base64DecodeRun (lit "abcd=") 2).1.length ≤ 2 ↔
      ¬ Tight sextet (trim (lit "abcd=")) 2) ∧
    ((base64urlDecodeRun (lit "abcd=") 2).1.length ≤ 2 ↔
      ¬ (Tight urlSextet (lit "abcd=") 2 ∨ TightRest (lit "abcd=") 2)) ∧
    (UrlTrips (lit "x") ↔ (lit "x").length % 3 = 0 ∧ (lit "x").length < 2 ^ 31) :=
  base64_bounds_iff (lit "abcd=") (lit "x") 2 (by decide)

/-- "abcd=" gives three bytes, also to a buffer of two; one byte is not read back. -/
theorem base64_overrun : (base64DecodeRun (lit "abcd=") 2).1.length = 3 ∧
    (base64urlDecodeRun (lit "abcd=") 2).1.length = 3 ∧ ¬ UrlTrips [120] := by
  refine ⟨by decide, by decide, fun h => ?_⟩
  have hcall := h 5 (by decide)
  revert hcall
  decide

end Voxlib.Crypto
