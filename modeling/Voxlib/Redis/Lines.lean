import Voxlib.Lib.Decimal
import Voxlib.Redis.Parser

/-!
# Numbers and lines of the RESP parser (vox_redis_parser.c)
-/

namespace Voxlib.Redis
open CStr Stream Decimal List Option

def crlf : Bytes := [13, 10]

def signed (n : ℤ) : Bytes := if n < 0 then 45 :: decimal n.natAbs else decimal n.natAbs

variable {l : Bytes}

theorem findCrlf_found (hl : ∀ c ∈ l, c ≠ 13) (rest : Bytes) :
    findCrlf (l ++ (crlf ++ rest)) = some l.length := by
  induction l with
  | nil => rfl
  | cons c l ih =>
    have hc : c ≠ 13 := hl c mem_cons_self
    have hno : isCrlf (c :: (l ++ (crlf ++ rest))) = false := by
      unfold isCrlf
      split
      · next heq => exact absurd (List.cons.inj heq).1 hc
      · rfl
    have hrest := ih fun c hc => hl c (mem_cons_of_mem _ hc)
    rw [cons_append]
    unfold findCrlf
    rw [hno, if_neg Bool.false_ne_true, hrest]
    rfl

theorem isCrlf_iff : isCrlf l = true ↔ ∃ rest, l = crlf ++ rest := by
  constructor
  · intro h
    unfold isCrlf at h
    split at h
    · exact ⟨_, rfl⟩
    · cases h
  · rintro ⟨rest, rfl⟩
    rfl

theorem isCrlf_two (c d : UInt8) (rest : Bytes) :
    isCrlf (c :: d :: rest) = decide (c = 13 ∧ d = 10) := by
  rw [Bool.eq_iff_iff, isCrlf_iff, decide_eq_true_iff]
  constructor
  · rintro ⟨l, hl⟩
    have hcons := List.cons.inj hl
    exact ⟨hcons.1, (List.cons.inj hcons.2).1⟩
  · rintro ⟨rfl, rfl⟩
    exact ⟨rest, rfl⟩

theorem findCrlf_some {k : ℕ} (h : findCrlf l = some k) :
    l = l.take k ++ (crlf ++ l.drop (k + 2)) ∧ k + 2 ≤ l.length := by
  induction l generalizing k with
  | nil => cases h
  | cons c l ih =>
    unfold findCrlf at h
    split at h
    · next hend =>
      obtain rfl := some.inj h
      obtain ⟨rest, hrest⟩ := isCrlf_iff.mp hend
      rw [hrest]
      exact ⟨rfl, by simp [crlf]⟩
    · obtain ⟨m, hm, rfl⟩ := map_eq_some_iff.mp h
      obtain ⟨hl, hlen⟩ := ih hm
      refine ⟨?_, by rw [length_cons]; omega⟩
      rw [take_succ_cons, drop_succ_cons, cons_append, ← hl]

theorem findCrlf_append_some {k : ℕ} (h : findCrlf l = some k) (y : Bytes) :
    findCrlf (l ++ y) = some k := by
  induction l generalizing k with
  | nil => cases h
  | cons c l ih =>
    cases l with
    | nil =>
      unfold findCrlf at h
      rw [if_neg (by unfold isCrlf; simp)] at h
      cases h
    | cons d l =>
      simp only [cons_append] at ih ⊢
      unfold findCrlf at h ⊢
      rw [isCrlf_two] at h ⊢
      by_cases hend : decide (c = 13 ∧ d = 10) = true
      · rw [if_pos hend] at h ⊢
        exact h
      · rw [if_neg hend] at h ⊢
        obtain ⟨m, hm, rfl⟩ := map_eq_some_iff.mp h
        rw [ih hm]
        rfl

/-- Nor does what is in front of it, unless its CR is the last byte there. -/
theorem findCrlf_append_none {y : Bytes} (h : findCrlf l = none)
    (hcut : ¬ (l.getLast? = some 13 ∧ y.head? = some 10)) :
    findCrlf (l ++ y) = (findCrlf y).map (· + l.length) := by
  induction l with
  | nil => cases hy : findCrlf y <;> simp [hy]
  | cons c l ih =>
    cases l with
    | nil =>
      cases y with
      | nil => exact h
      | cons d y =>
        have hno : ¬ decide (c = 13 ∧ d = 10) = true := by
          intro hyes
          obtain ⟨rfl, rfl⟩ := of_decide_eq_true hyes
          exact hcut ⟨rfl, rfl⟩
        rw [singleton_append]
        conv_lhs => unfold findCrlf
        rw [isCrlf_two, if_neg hno]
        rfl
    | cons d l =>
      have hstep : findCrlf (d :: l) = none ∧ ¬ decide (c = 13 ∧ d = 10) = true := by
        unfold findCrlf at h
        rw [isCrlf_two] at h
        by_cases hend : decide (c = 13 ∧ d = 10) = true
        · rw [if_pos hend] at h
          cases h
        · rw [if_neg hend] at h
          exact ⟨map_eq_none_iff.mp h, hend⟩
      have hrest := ih hstep.1 (by rwa [List.getLast?_cons_cons] at hcut)
      simp only [cons_append] at hrest ⊢
      conv_lhs => unfold findCrlf
      rw [isCrlf_two, if_neg hstep.2, hrest, Option.map_map]
      rfl
theorem parseDigits_cons {value : ℤ} {d : ℕ} (hd : d < 10)
    (hmax : value * 10 + d ≤ int64Max) (rest : Bytes) :
    parseDigits (UInt8.ofNat (48 + d) :: rest) value = parseDigits rest (value * 10 + d) := by
  have hbyte : (UInt8.ofNat (48 + d)).toNat = 48 + d := by
    rw [UInt8.toNat_ofNat']
    omega
  have hdigit : 48 ≤ UInt8.ofNat (48 + d) ∧ UInt8.ofNat (48 + d) ≤ 57 := by
    rw [UInt8.le_iff_toNat_le, UInt8.le_iff_toNat_le, hbyte]
    exact ⟨Nat.le_add_right 48 d, by show 48 + d ≤ 57; omega⟩
  have hval : ((UInt8.ofNat (48 + d)).toNat : ℤ) - 48 = d := by
    rw [hbyte]
    push_cast
    ring
  have hroom : ¬ value > (int64Max - d) / 10 := by
    unfold int64Max at hmax ⊢
    omega
  conv_lhs => unfold parseDigits
  rw [if_neg (not_not.mpr hdigit)]
  dsimp only
  rw [hval, if_neg hroom]

theorem parseDigits_decimal {n : ℕ} (hn : (n : ℤ) ≤ int64Max) (rest : Bytes) :
    parseDigits (decimal n ++ rest) 0 = parseDigits rest n := by
  induction n using decimal_induction generalizing rest with
  | digit n h =>
    rw [decimal_last, if_pos h, nil_append, Nat.mod_eq_of_lt h, singleton_append,
      parseDigits_cons h (by rw [zero_mul, zero_add]; exact hn), zero_mul, zero_add]
  | more n h ih =>
    have hvalue : ((n / 10 : ℕ) : ℤ) * 10 + ((n % 10 : ℕ) : ℤ) = n := by omega
    rw [decimal_last, if_neg (Nat.not_lt.mpr h), append_assoc, ih (by omega),
      singleton_append,
      parseDigits_cons (Nat.mod_lt n (by omega)) (by rw [hvalue]; exact hn), hvalue]

theorem signed_ne_nil (n : ℤ) : signed n ≠ [] := by
  unfold signed
  split
  · simp
  · exact decimal_ne_nil _

theorem signed_plain (n : ℤ) : ∀ c ∈ signed n, c ≠ 13 := by
  have hdecimal (k : ℕ) (c : UInt8) (hc : c ∈ decimal k) : c ≠ 13 := by
    rintro rfl
    have := (decimal_digits k 13 hc).1
    exact absurd this (by decide)
  unfold signed
  split
  · intro c hc
    rcases mem_cons.mp hc with rfl | hc
    · decide
    · exact hdecimal _ c hc
  · exact hdecimal _

theorem parseInteger_signed {n : ℤ} (hmin : -int64Max ≤ n) (hmax : n ≤ int64Max) :
    parseInteger (signed n) = some n := by
  have hread (k : ℕ) (hk : (k : ℤ) ≤ int64Max) : parseDigits (decimal k) 0 = some (k : ℤ) := by
    have := parseDigits_decimal hk []
    rwa [append_nil] at this
  have habs := hread n.natAbs (by omega)
  unfold signed
  by_cases hneg : n < 0
  · rw [if_pos hneg]
    unfold parseInteger
    dsimp only
    rw [if_pos rfl, if_neg (decimal_ne_nil _), habs, map_some]
    congr 1
    omega
  · rw [if_neg hneg]
    obtain ⟨c, rest, hc⟩ := exists_cons_of_ne_nil (decimal_ne_nil n.natAbs)
    have hdigit := decimal_digits n.natAbs c (by rw [hc]; exact mem_cons_self)
    have hminus : c ≠ 45 := by
      rintro rfl
      exact absurd hdigit.1 (by decide)
    have hplus : c ≠ 43 := by
      rintro rfl
      exact absurd hdigit.1 (by decide)
    unfold parseInteger
    rw [hc]
    dsimp only
    rw [if_neg hminus, if_neg hplus, ← hc, habs]
    congr 1
    omega

section
variable {σ : Type*} {h : Handler σ} {grow : ℕ → Bool}

variable {p : Parser}

theorem accumulate_eq {q : Parser} {data : Bytes} (hq : accumulate grow p data = some q) :
    q = { p with stringBuf := p.stringBuf ++ data } := by
  unfold accumulate at hq
  split at hq
  · next hdata =>
    rw [hdata, append_nil]
    exact (some.inj hq).symm
  · split at hq
    · exact (some.inj hq).symm
    · cases hq

theorem accumulate_grown {data : Bytes} (hg : grow (p.stringBuf.length + data.length)) :
    accumulate grow p data = some { p with stringBuf := p.stringBuf ++ data } := by
  unfold accumulate
  by_cases hdata : data = []
  · rw [if_pos hdata, hdata, append_nil]
  · rw [if_neg hdata, if_pos hg]

theorem accumulate_short {data : Bytes} (hdata : data ≠ [])
    (hg : ¬ grow (p.stringBuf.length + data.length)) : accumulate grow p data = none := by
  unfold accumulate
  rw [if_neg hdata, if_neg hg]

variable {s : Parser × σ}

theorem line_front {text : Bytes} (htext : text ≠ []) (b b' : UInt8) (failure : String)
    (done : Parser → σ → Turn σ) :
    line h grow s text (b :: text) failure done = line h grow s text (b' :: text) failure done := by
  obtain ⟨c, l, rfl⟩ := exists_cons_of_ne_nil htext
  rfl

theorem line_found {l : Bytes} (hg : grow (s.1.stringBuf.length + l.length)) (hl : ∀ c ∈ l, c ≠ 13)
    (rest cur : Bytes) (failure : String) (done : Parser → σ → Turn σ) :
    line h grow s (l ++ (crlf ++ rest)) cur failure done =
      (done { s.1 with stringBuf := s.1.stringBuf ++ l } s.2).flow (cur.drop (l.length + 2)) := by
  unfold line
  rw [findCrlf_found hl]
  dsimp only
  rw [take_left, accumulate_grown hg]

theorem line_short {l : Bytes} (hempty : l ≠ []) (hg : ¬ grow (s.1.stringBuf.length + l.length))
    (hl : ∀ c ∈ l, c ≠ 13) (rest cur : Bytes) (failure : String) (done : Parser → σ → Turn σ) :
    line h grow s (l ++ (crlf ++ rest)) cur failure done = .fail (setError h s.1 s.2 failure) := by
  unfold line
  rw [findCrlf_found hl]
  dsimp only
  rw [take_left, accumulate_short hempty hg]

theorem pass_type {q : Parser} {u : σ} {c : UInt8} (hp : p.state = .start)
    (htype : typeByte h p u c = .ok (q, u)) (before : UInt8) (rest : Bytes) :
    pass h grow (p, u) (before :: c :: rest) = .go (q, u) (c :: rest) := by
  unfold pass
  dsimp only [tail_cons]
  rw [hp]
  dsimp only
  rw [htype]
  rfl

/- A type byte behind which there is a line with a number. -/
structure NumberLine (h : Handler σ) (grow : ℕ → Bool) (p : Parser) (u : σ) (c : UInt8) (kind : Kind)
    (state : State) (failure : String) (done : Parser → σ → Turn σ) : Prop where
  type : typeByte h p u c = .ok (p.begin kind state, u)
  line : ∀ s cur, s.1.state = state → cur.tail ≠ [] →
    pass h grow s cur = line h grow s cur.tail cur failure done

theorem passes_number {u : σ} {c : UInt8} {kind : Kind} {state : State} {failure : String}
    {done : Parser → σ → Turn σ} (hp : p.state = .start)
    (hl : NumberLine h grow p u c kind state failure done) {n : ℤ} (hg : grow (signed n).length)
    (before : UInt8) (rest : Bytes) (k : ℕ) :
    passes (pass h grow) (k + 2) (p, u) (before :: c :: (signed n ++ (crlf ++ rest))) =
      ((done { p.begin kind state with stringBuf := signed n } u).flow (10 :: rest)).andThen
        (passes (pass h grow) k) := by
  have hdrop : (c :: (signed n ++ (crlf ++ rest))).drop ((signed n).length + 2) = 10 :: rest := by
    rw [drop_succ_cons, drop_length_add_append]
    rfl
  have hroom : grow (([] : Bytes).length + (signed n).length) := by
    rw [length_nil, Nat.zero_add]
    exact hg
  have hsecond : pass h grow (p.begin kind state, u)
      (c :: (signed n ++ (crlf ++ rest))) =
      (done { p.begin kind state with stringBuf := signed n } u).flow (10 :: rest) := by
    rw [hl.line _ _ rfl (by simp [crlf]), tail_cons, line_found hroom (signed_plain n), hdrop]
    rfl
  simp only [passes]
  rw [pass_type hp hl.type, Flow.go_andThen, hsecond]

theorem passes_number_short {u : σ} {c : UInt8} {kind : Kind} {state : State} {failure : String}
    {done : Parser → σ → Turn σ} (hp : p.state = .start)
    (hl : NumberLine h grow p u c kind state failure done) {n : ℤ} (hg : ¬ grow (signed n).length)
    (before : UInt8) (rest : Bytes) (k : ℕ) :
    ∃ t, passes (pass h grow) (k + 2) (p, u) (before :: c :: (signed n ++ (crlf ++ rest))) =
      .fail t := by
  have hroom : ¬ grow (([] : Bytes).length + (signed n).length) := by
    rw [length_nil, Nat.zero_add]
    exact hg
  have hsecond : pass h grow (p.begin kind state, u)
      (c :: (signed n ++ (crlf ++ rest))) =
      .fail (setError h (p.begin kind state) u failure) := by
    rw [hl.line _ _ rfl (by simp [crlf]), tail_cons,
      line_short (signed_ne_nil n) hroom (signed_plain n)]
  simp only [passes]
  rw [pass_type hp hl.type, Flow.go_andThen, hsecond]
  exact ⟨_, rfl⟩

variable {cur : Bytes}

theorem pass_integer (hs : s.1.state = .integer) (hcur : cur.tail ≠ []) : pass h grow s cur =
      line h grow s cur.tail cur "Failed to accumulate integer" (integerDone h) := by
  obtain ⟨c, l, hc⟩ := exists_cons_of_ne_nil hcur
  unfold pass
  rw [hc]
  dsimp only
  rw [hs]

theorem pass_bulkStringLen (hs : s.1.state = .bulkStringLen) (hcur : cur.tail ≠ []) :
    pass h grow s cur =
      line h grow s cur.tail cur "Failed to accumulate length" (bulkStringLenDone h) := by
  obtain ⟨c, l, hc⟩ := exists_cons_of_ne_nil hcur
  unfold pass
  rw [hc]
  dsimp only
  rw [hs]

theorem pass_arrayCount (hs : s.1.state = .arrayCount) (hcur : cur.tail ≠ []) : pass h grow s cur =
      line h grow s cur.tail cur "Failed to accumulate array count" (arrayCountDone h) := by
  obtain ⟨c, l, hc⟩ := exists_cons_of_ne_nil hcur
  unfold pass
  rw [hc]
  dsimp only
  rw [hs]

theorem pass_text (hs : s.1.state = .simpleString ∨ s.1.state = .error) (hcur : cur.tail ≠ []) :
    pass h grow s cur = line h grow s cur cur "Failed to accumulate string" (simpleDone h) := by
  obtain ⟨c, l, hc⟩ := exists_cons_of_ne_nil hcur
  unfold pass
  rw [hc]
  dsimp only
  rcases hs with hs | hs
  · rw [hs]
  · rw [hs]

theorem pass_bulkStringData (hs : s.1.state = .bulkStringData) (hcur : cur.tail ≠ []) :
    pass h grow s cur = bulkStringData h s cur := by
  obtain ⟨c, l, hc⟩ := exists_cons_of_ne_nil hcur
  unfold pass
  rw [hc]
  dsimp only
  rw [hs]

theorem pass_cr (hs : s.1.state = .cr) (b c : UInt8) (rest : Bytes) :
    pass h grow s (b :: c :: rest) = (crByte h s.1 s.2 c).flow (c :: rest) := by
  unfold pass
  dsimp only [tail_cons]
  rw [hs]

theorem pass_lf (hs : s.1.state = .lf) (b c : UInt8) (rest : Bytes) :
    pass h grow s (b :: c :: rest) = (lfByte h s.1 s.2 c).flow (c :: rest) := by
  unfold pass
  dsimp only [tail_cons]
  rw [hs]

theorem passes_complete (hp : p.state = .complete) (u : σ) (cur : Bytes) (k : ℕ) :
    passes (pass h grow) k (p, u) cur = .wait (p, u) cur := by
  cases k with
  | zero => rfl
  | succ k =>
    have hpass : pass h grow (p, u) cur = .wait (p, u) cur := by
      unfold pass
      split
      · rfl
      · dsimp only
        rw [hp]
    simp only [passes]
    rw [hpass, Flow.wait_andThen]

end

end Voxlib.Redis
