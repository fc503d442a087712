import Mathlib.Data.List.TakeWhile
import Voxlib.Json.Grammar

/-!
# Accepted texts

vox_json_parse accepts the texts of the relaxed grammar whose numbers strtod can read, and no
others.
-/

namespace Voxlib.Json
open CStr List

def Blank (w : Bytes) : Prop := ∀ c ∈ w, isWhitespace c = true

variable {w : Bytes}

theorem autoSkip_blank (hw : Blank w) (x : Bytes) :
    autoSkip (w ++ x) = autoSkip x := dropWhile_append_of_pos hw

def Settled (x : Bytes) : Prop := autoSkip x = x

variable {c : UInt8}

theorem settled_cons (hc : isWhitespace c = false) (x : Bytes) : Settled (c :: x) :=
  dropWhile_cons_of_neg (by simp [hc])

theorem settled_autoSkip (x : Bytes) : Settled (autoSkip x) := by
  unfold Settled autoSkip
  induction x with
  | nil => rfl
  | cons c x ih =>
    by_cases hc : isWhitespace c = true
    · rw [dropWhile_cons_of_pos hc]
      exact ih
    · rw [dropWhile_cons_of_neg hc, dropWhile_cons_of_neg hc]

theorem autoSkip_split (x : Bytes) : ∃ w, Blank w ∧ x = w ++ autoSkip x :=
  ⟨x.takeWhile isWhitespace, fun _ hc => mem_takeWhile_imp hc,
    takeWhile_append_dropWhile.symm⟩

def Follows (x : Bytes) : Prop :=
  ∀ c ∈ x.head?, isDigit c = false ∧ c ≠ 46 ∧ c ≠ 101 ∧ c ≠ 69

theorem isDigitAt_cons (c : UInt8) (x : Bytes) : isDigitAt (c :: x) = isDigit c := by
  simp [isDigitAt]

variable {x : Bytes}

theorem not_digitAt (h : ∀ c ∈ x.head?, isDigit c = false) : isDigitAt x = false := by
  cases x with
  | nil => rfl
  | cons c x =>
    rw [isDigitAt_cons]
    exact h c rfl

theorem digits_drop {ds : Bytes} (hds : ∀ c ∈ ds, isDigit c = true)
    (hx : ∀ c ∈ x.head?, isDigit c = false) : (ds ++ x).dropWhile isDigit = x :=
  (takeWhile_stop hds hx).2

theorem digits_front {ds : Bytes} (h : Digits ds) (x : Bytes) :
    ∃ d rest, ds = d :: rest ∧ isDigit d = true ∧ isDigitAt (ds ++ x) = true := by
  obtain ⟨hne, hall⟩ := h
  cases ds with
  | nil => exact absurd rfl hne
  | cons d rest =>
    have hd := hall d (mem_cons_self ..)
    exact ⟨d, rest, rfl, hd, by rw [cons_append, isDigitAt_cons, hd]⟩

theorem scanInteger_text {int : Bytes} (h : IntText int) (hx : ∀ c ∈ x.head?, isDigit c = false) :
    scanInteger (int ++ x) = .ok x := by
  unfold scanInteger
  rcases h with rfl | ⟨hdigits, hfront⟩
  · exact if_pos rfl
  · obtain ⟨d, rest, rfl, -, hat⟩ := digits_front hdigits x
    rw [if_neg (by simpa using hfront), if_pos hat, digits_drop hdigits.2 hx]

theorem scanFraction_text {frac : Bytes} (h : FracText frac)
    (hx : ∀ c ∈ x.head?, isDigit c = false ∧ c ≠ 46) : scanFraction (frac ++ x) = .ok x := by
  unfold scanFraction
  rcases h with rfl | ⟨ds, hdigits, rfl⟩
  · have hdot : ([] ++ x).head? ≠ some 46 := fun heq => (hx 46 heq).2 rfl
    rw [if_neg hdot]
    rfl
  · obtain ⟨-, -, -, -, hat⟩ := digits_front hdigits x
    have hdrop := digits_drop hdigits.2 fun c hc => (hx c hc).1
    simp only [cons_append, List.head?_cons, tail_cons, if_true, hat, hdrop]
    rfl

theorem scanExponent_text {exp : Bytes} (h : ExpText exp)
    (hx : ∀ c ∈ x.head?, isDigit c = false ∧ c ≠ 101 ∧ c ≠ 69) :
    scanExponent (exp ++ x) = .ok x := by
  unfold scanExponent
  rcases h with rfl | ⟨e, sign, ds, he, hsign, hdigits, rfl⟩
  · have hnone : ¬ (([] ++ x).head? = some 101 ∨ ([] ++ x).head? = some 69) := by
      rintro (heq | heq)
      · exact (hx 101 heq).2.1 rfl
      · exact (hx 69 heq).2.2 rfl
    rw [if_neg hnone]
    rfl
  · obtain ⟨d, rest, rfl, hd, hat⟩ := digits_front hdigits x
    have hdrop := digits_drop hdigits.2 fun c hc => (hx c hc).1
    have hletter : (e :: (sign ++ (d :: rest)) ++ x).head? = some 101 ∨
        (e :: (sign ++ (d :: rest)) ++ x).head? = some 69 := by
      simpa using he
    have hbehind : (if (sign ++ (d :: rest ++ x)).head? = some 43 ∨
        (sign ++ (d :: rest ++ x)).head? = some 45 then (sign ++ (d :: rest ++ x)).tail
        else sign ++ (d :: rest ++ x)) = d :: rest ++ x := by
      rcases hsign with rfl | rfl | rfl
      · have hplus : d ≠ 43 := fun heq => absurd (heq ▸ hd) (by decide)
        have hminus : d ≠ 45 := fun heq => absurd (heq ▸ hd) (by decide)
        simp [hplus, hminus]
      · simp
      · simp
    rw [if_pos hletter]
    simp only [cons_append, tail_cons, append_assoc] at hbehind hdrop hat ⊢
    rw [hbehind, hat, hdrop]
    rfl

variable {b : Bytes}

theorem scanNumber_text (h : NumberText b) (hx : Follows x) : scanNumber (b ++ x) = .ok x := by
  obtain ⟨sign, int, frac, exp, hsign, hint, hfrac, hexp, rfl⟩ := h
  -- what comes behind each part does not go on with it
  have hbehindFrac : ∀ c ∈ (exp ++ x).head?, isDigit c = false ∧ c ≠ 46 := by
    intro c hc
    rcases hexp with rfl | ⟨e, s, ds, he, _, _, rfl⟩
    · exact ⟨(hx c hc).1, (hx c hc).2.1⟩
    · obtain rfl : e = c := by simpa using hc
      rcases he with rfl | rfl <;> decide
  have hbehindInt : ∀ c ∈ (frac ++ (exp ++ x)).head?, isDigit c = false := by
    intro c hc
    rcases hfrac with rfl | ⟨ds, _, rfl⟩
    · exact (hbehindFrac c hc).1
    · obtain rfl : 46 = c := by simpa using hc
      decide
  have hunsigned : (if (sign ++ (int ++ (frac ++ exp)) ++ x).head? = some 45 then
      (sign ++ (int ++ (frac ++ exp)) ++ x).tail else sign ++ (int ++ (frac ++ exp)) ++ x) =
        int ++ (frac ++ (exp ++ x)) := by
    have hminus : (int ++ (frac ++ (exp ++ x))).head? ≠ some 45 := by
      rcases hint with rfl | ⟨hdigits, -⟩
      · intro heq
        exact absurd (Option.some.inj heq) (by decide)
      · obtain ⟨d, rest, rfl, hd, -⟩ := digits_front hdigits x
        intro heq
        obtain rfl : d = 45 := by simpa using heq
        exact absurd hd (by decide)
    rcases hsign with rfl | rfl
    · simp only [nil_append, append_assoc, if_neg hminus]
    · simp only [append_assoc, cons_append, nil_append, List.head?_cons,
        tail_cons, if_true]
  unfold scanNumber
  rw [hunsigned, scanInteger_text hint hbehindInt]
  simp only [bind, Except.bind]
  rw [if_neg fun hzero => Bool.false_ne_true ((not_digitAt hbehindInt).symm.trans hzero.2.2.2),
    scanFraction_text hfrac hbehindFrac]
  exact scanExponent_text hexp fun c hc => ⟨(hx c hc).1, (hx c hc).2.2⟩

variable {p : Bytes}

theorem digits_taken (h : isDigitAt p = true) :
    ∃ ds, Digits ds ∧ ds.head? = p.head? ∧ p = ds ++ p.dropWhile isDigit := by
  cases p with
  | nil => exact absurd h (by decide)
  | cons c p =>
    rw [isDigitAt_cons] at h
    refine ⟨(c :: p).takeWhile isDigit, ⟨?_, fun d hd => mem_takeWhile_imp hd⟩, ?_,
      takeWhile_append_dropWhile.symm⟩
    · rw [takeWhile_cons_of_pos h]
      exact cons_ne_nil _ _
    · rw [takeWhile_cons_of_pos h]
      rfl

theorem scanInteger_sound {q : Bytes} (h : scanInteger p = .ok q) :
    ∃ int, IntText int ∧ p = int ++ q := by
  unfold scanInteger at h
  split_ifs at h with hzero hdigit
  · obtain rfl := Except.ok.inj h
    cases p with
    | nil => exact absurd hzero (by decide)
    | cons c p =>
      obtain rfl : c = 48 := by simpa using hzero
      exact ⟨[48], .inl rfl, rfl⟩
  · obtain rfl := Except.ok.inj h
    obtain ⟨ds, hds, hfront, hp⟩ := digits_taken hdigit
    exact ⟨ds, .inr ⟨hds, hfront ▸ hzero⟩, hp⟩

theorem scanFraction_sound {q : Bytes} (h : scanFraction p = .ok q) :
    ∃ frac, FracText frac ∧ p = frac ++ q := by
  unfold scanFraction at h
  split_ifs at h with hdot hdigit
  · obtain rfl := Except.ok.inj h
    cases p with
    | nil => exact absurd hdot (by decide)
    | cons c p =>
      obtain rfl : c = 46 := by simpa using hdot
      obtain ⟨ds, hds, -, hp⟩ := digits_taken (p := p) (by simpa using hdigit)
      exact ⟨46 :: ds, .inr ⟨ds, hds, rfl⟩, congrArg (List.cons 46) hp⟩
  · exact ⟨[], .inl rfl, (Except.ok.inj h)⟩

theorem scanExponent_sound {q : Bytes} (h : scanExponent p = .ok q) :
    ∃ exp, ExpText exp ∧ p = exp ++ q := by
  unfold scanExponent at h
  dsimp only at h
  split_ifs at h with hletter hsign hdigit hdigit
  all_goals obtain rfl := Except.ok.inj h
  · obtain ⟨ds, hds, -, hp⟩ := digits_taken (p := p.tail.tail) (by simpa using hdigit)
    obtain ⟨e, s, rest, rfl⟩ : ∃ e s rest, p = e :: s :: rest := by
      match p with
      | [] => simp at hletter
      | [e] => simp at hsign
      | e :: s :: rest => exact ⟨e, s, rest, rfl⟩
    refine ⟨e :: ([s] ++ ds), .inr ⟨e, [s], ds, by simpa using hletter, ?_, hds, rfl⟩, ?_⟩
    · have hs : s = 43 ∨ s = 45 := by simpa using hsign
      rcases hs with rfl | rfl
      · exact .inr (.inl rfl)
      · exact .inr (.inr rfl)
    · exact congrArg (fun l => e :: s :: l) hp
  · obtain ⟨ds, hds, -, hp⟩ := digits_taken (p := p.tail) (by simpa using hdigit)
    cases p with
    | nil => simp at hletter
    | cons e p =>
      exact ⟨e :: ([] ++ ds), .inr ⟨e, [], ds, by simpa using hletter, .inl rfl, hds, rfl⟩,
        congrArg (List.cons e) hp⟩
  · exact ⟨[], .inl rfl, rfl⟩

theorem scanNumber_sound {q : Bytes} (h : scanNumber p = .ok q) :
    ∃ b, NumberText b ∧ p = b ++ q := by
  unfold scanNumber at h
  simp only [bind, Except.bind] at h
  cases hint : scanInteger (if p.head? = some 45 then p.tail else p) with
  | error message => simp [hint] at h
  | ok r =>
    rw [hint] at h
    dsimp only at h
    split_ifs at h
    cases hfrac : scanFraction r with
    | error message => simp [hfrac] at h
    | ok t =>
      rw [hfrac] at h
      obtain ⟨int, hint', hp⟩ := scanInteger_sound hint
      obtain ⟨frac, hfrac', rfl⟩ := scanFraction_sound hfrac
      obtain ⟨exp, hexp, rfl⟩ := scanExponent_sound h
      obtain ⟨sign, hsign, hwhole⟩ : ∃ sign, (sign = [] ∨ sign = [45]) ∧
          p = sign ++ if p.head? = some 45 then p.tail else p := by
        by_cases hminus : p.head? = some 45
        · rw [if_pos hminus]
          cases p with
          | nil => simp at hminus
          | cons c p =>
            obtain rfl : c = 45 := by simpa using hminus
            exact ⟨[45], .inr rfl, rfl⟩
        · rw [if_neg hminus]
          exact ⟨[], .inl rfl, rfl⟩
      refine ⟨sign ++ (int ++ (frac ++ exp)), ⟨sign, int, frac, exp, hsign, hint', hfrac', hexp,
        rfl⟩, ?_⟩
      rw [hwhole, hp]
      simp only [append_assoc]

theorem scanChars_quote (p : Bytes) : scanChars (34 :: p) = .ok (34 :: p) := by
  simp [scanChars.eq_def]

theorem scanChars_plain (hquote : c ≠ 34) (hescape : c ≠ 92) (p : Bytes) :
    scanChars (c :: p) = scanChars p := by
  rw [scanChars.eq_def]
  simp [hquote, hescape]

theorem scanChars_escape {e : UInt8} (he : e ≠ 117) (p : Bytes) :
    scanChars (92 :: e :: p) = scanChars p := by
  rw [scanChars.eq_def]
  simp [he]

theorem scanChars_hex {a b d : UInt8} (h : isxdigit a ∧ isxdigit b ∧ isxdigit c ∧ isxdigit d)
    (p : Bytes) : scanChars (92 :: 117 :: a :: b :: c :: d :: p) = scanChars p := by
  rw [scanChars.eq_def]
  simp [h]

theorem scanChars_text (h : LaxChars b) (x : Bytes) : scanChars (b ++ 34 :: x) = .ok (34 :: x) := by
  induction h with
  | nil => exact scanChars_quote x
  | plain hquote hescape _ ih => exact (scanChars_plain hquote hescape _).trans ih
  | escape he _ ih => exact (scanChars_escape he _).trans ih
  | hex ha hb hc hd _ ih => exact (scanChars_hex ⟨ha, hb, hc, hd⟩ _).trans ih

theorem scanChars_sound {q : Bytes} (h : scanChars p = .ok q) (hq : q ≠ []) :
    ∃ b x, LaxChars b ∧ q = 34 :: x ∧ p = b ++ q := by
  fun_induction scanChars p with
  | case1 => exact absurd (Except.ok.inj h).symm hq
  | case2 ptr =>
    obtain rfl := Except.ok.inj h
    exact ⟨[], ptr, .nil, rfl, rfl⟩
  | case3 => cases h
  | case4 a b c d ptr hhex hne ih =>
    obtain ⟨w, x, hw, hqx, hp⟩ := ih h
    exact ⟨_, x, .hex hhex.1 hhex.2.1 hhex.2.2.1 hhex.2.2.2 hw, hqx, by rw [hp]; rfl⟩
  | case5 => cases h
  | case6 => cases h
  | case7 e ptr he hne ih =>
    obtain ⟨w, x, hw, hqx, hp⟩ := ih h
    exact ⟨_, x, .escape he hw, hqx, by rw [hp]; rfl⟩
  | case8 ch ptr hquote hescape ih =>
    obtain ⟨w, x, hw, hqx, hp⟩ := ih h
    exact ⟨_, x, .plain hquote hescape hw, hqx, by rw [hp]; rfl⟩

theorem LaxChars.dropWhile (h : LaxChars b) : LaxChars (b.dropWhile isWhitespace) := by
  have hescape : isWhitespace 92 = false := by decide
  induction h with
  | nil => exact .nil
  | @plain c rest hquote hne h ih =>
    by_cases hc : isWhitespace c = true
    · rw [dropWhile_cons_of_pos hc]
      exact ih
    · rw [dropWhile_cons_of_neg hc]
      exact .plain hquote hne h
  | escape he h _ =>
    rw [dropWhile_cons_of_neg (by simp [hescape])]
    exact .escape he h
  | hex ha hb hc hd h _ =>
    rw [dropWhile_cons_of_neg (by simp [hescape])]
    exact .hex ha hb hc hd h

theorem LaxChars.append_blank (hw : Blank w) (h : LaxChars b) : LaxChars (w ++ b) := by
  refine .plain_append (fun c hc => ?_) h
  have hblank := hw c hc
  exact ⟨fun heq => absurd (heq ▸ hblank) (by decide), fun heq => absurd (heq ▸ hblank) (by decide)⟩

variable {env : Env}

theorem parseString_text (helem : env.elem = true) (h : LaxChars b) (x : Bytes) :
    parseString env (34 :: (b ++ 34 :: x)) = .ok (b.dropWhile isWhitespace, autoSkip x) := by
  have hstart : getChar (34 :: (b ++ 34 :: x)) = b.dropWhile isWhitespace ++ 34 :: x := by
    have hblank : Blank (b.takeWhile isWhitespace) := fun _ hc => mem_takeWhile_imp hc
    show autoSkip (b ++ 34 :: x) = _
    conv_lhs => rw [← takeWhile_append_dropWhile (p := isWhitespace) (l := b)]
    rw [append_assoc, autoSkip_blank hblank]
    cases hrest : b.dropWhile isWhitespace with
    | nil => exact settled_cons (by decide) x
    | cons c rest =>
      have hc : ¬ isWhitespace c = true := by
        have hhead := dropWhile_get_zero_not isWhitespace b (by rw [hrest]; exact Nat.succ_pos _)
        simpa [hrest] using hhead
      exact settled_cons (by simpa using hc) _
  have hlen : (b.dropWhile isWhitespace ++ 34 :: x).length - (34 :: x).length =
      (b.dropWhile isWhitespace).length := by
    rw [length_append]
    omega
  have hskip : skip (b.dropWhile isWhitespace ++ 34 :: x) (b.dropWhile isWhitespace).length =
      34 :: x := by
    rw [skip, drop_left]
    exact settled_cons (by decide) x
  rw [parseString, if_neg (by simp)]
  dsimp only
  rw [hstart, scanChars_text h.dropWhile]
  dsimp only
  rw [hlen, hskip, if_neg (by simp), newElem, if_pos helem, take_left]
  rfl

variable {rest : Bytes}

theorem parseString_sound {s : Bytes} (h : parseString env p = .ok (s, rest)) :
    ∃ b w, LaxChars b ∧ Blank w ∧ p = 34 :: (b ++ 34 :: (w ++ rest)) ∧ Settled rest := by
  unfold parseString at h
  split_ifs at h with hquote
  · cases h
  obtain ⟨p, rfl⟩ : ∃ p', p = 34 :: p' := by
    cases p with
    | nil => simp at hquote
    | cons c p => exact ⟨p, by rw [show c = 34 by simpa using hquote]⟩
  obtain ⟨w₀, hw₀, hp⟩ := autoSkip_split p
  dsimp only at h
  rw [show getChar (34 :: p) = autoSkip p from rfl] at h
  generalize hstart : autoSkip p = start at h hp
  cases hscan : scanChars start with
  | error message =>
    rw [hscan] at h
    cases h
  | ok q =>
    rw [hscan] at h
    cases q with
    | nil => cases h
    | cons c q =>
      obtain ⟨b, x, hb, hq, rfl⟩ := scanChars_sound hscan (cons_ne_nil _ _)
      obtain ⟨rfl, rfl⟩ := List.cons.inj hq
      have hlen : (b ++ 34 :: q).length - (34 :: q).length = b.length := by
        rw [length_append]
        omega
      have hskip : skip (b ++ 34 :: q) b.length = 34 :: q := by
        rw [skip, drop_left]
        exact settled_cons (by decide) q
      dsimp only at h
      rw [hlen, hskip, if_neg (by simp), newElem] at h
      split_ifs at h
      · obtain ⟨-, rfl⟩ := Prod.mk.inj (Except.ok.inj h)
        obtain ⟨w, hw, hx⟩ := autoSkip_split q
        refine ⟨w₀ ++ b, w, hb.append_blank hw₀, hw, ?_, settled_autoSkip q⟩
        rw [hp, append_assoc]
        conv_lhs => rw [hx]
        rfl
      · cases h

structure Env.Ample (env : Env) : Prop where
  elem : env.elem = true
  member : env.member = true
  digits : ∀ n, env.digits n = true

theorem parseNumber_text (henv : env.Ample) (h : NumberText b) (hrange : InRange env.strtod b)
    (hx : Follows x) : parseNumber env (b ++ x) = .ok (.number (env.strtod b).1, autoSkip x) := by
  have hlen : (b ++ x).length - x.length = b.length := by
    rw [length_append]
    omega
  rw [parseNumber, scanNumber_text h hx]
  dsimp only
  rw [hlen, if_neg (by simp [henv.digits]), take_left, if_neg (by simp [hrange.1]),
    if_neg hrange.2, newElem, if_pos henv.elem, skip, drop_left]

variable {e : Elem}

theorem parseNumber_sound (h : parseNumber env p = .ok (e, rest)) :
    ∃ b w, NumberText b ∧ InRange env.strtod b ∧ Blank w ∧ p = b ++ (w ++ rest) ∧ Settled rest := by
  unfold parseNumber at h
  cases hscan : scanNumber p with
  | error message =>
    rw [hscan] at h
    cases h
  | ok q =>
    obtain ⟨b, hb, rfl⟩ := scanNumber_sound hscan
    have hlen : (b ++ q).length - q.length = b.length := by
      rw [length_append]
      omega
    rw [hscan] at h
    dsimp only at h
    rw [hlen, take_left, skip, drop_left, newElem] at h
    split_ifs at h with _ herange hvalue
    · cases h
    · cases h
    · obtain ⟨-, rfl⟩ := Prod.mk.inj (Except.ok.inj h)
      obtain ⟨w, hw, hq⟩ := autoSkip_split q
      refine ⟨b, w, hb, ⟨by simpa using herange, hvalue⟩, hw, ?_, settled_autoSkip q⟩
      rw [← hq]
    · cases h
    · cases h

variable {n : ℕ}

theorem parseValue_number (hc : c = 45 ∨ isDigit c = true) :
    parseValue env (n + 1) (c :: p) = parseNumber env (c :: p) := by
  have hnull : c ≠ 110 := by
    rintro rfl
    exact absurd hc (by decide)
  have hbool : ¬ (c = 116 ∨ c = 102) := by
    rintro (rfl | rfl) <;> exact absurd hc (by decide)
  rw [parseValue, if_neg hnull, if_neg hbool, if_pos hc]

theorem parseValue_string {text : Bytes} (h : parseString env (34 :: p) = .ok (text, rest)) :
    parseValue env (n + 1) (34 :: p) = .ok (.string text, rest) := by
  rw [parseValue, if_neg (by decide), if_neg (by decide), if_neg (by decide), if_pos rfl, h]
  rfl

theorem parseValue_emptyArray (henv : env.Ample) (h : autoSkip p = 93 :: x) :
    parseValue env (n + 1) (91 :: p) = .ok (.array .nil, autoSkip x) := by
  have hcur : getChar (91 :: p) = 93 :: x := h
  rw [parseValue, if_neg (by decide), if_neg (by decide), if_neg (by decide),
    if_neg (by decide), if_pos rfl]
  dsimp only
  rw [hcur, if_neg (by simp [henv.elem])]
  exact if_pos rfl

theorem parseValue_array (henv : env.Ample) {items : Items} (hp : (autoSkip p).head? ≠ some 93)
    (h : parseItems env n (autoSkip p) = .ok (items, rest)) :
    parseValue env (n + 1) (91 :: p) = .ok (.array items, rest) := by
  have hcur : getChar (91 :: p) = autoSkip p := rfl
  rw [parseValue, if_neg (by decide), if_neg (by decide), if_neg (by decide),
    if_neg (by decide), if_pos rfl]
  dsimp only
  rw [hcur, if_neg (by simp [henv.elem]), if_neg hp, h]
  rfl

theorem parseValue_emptyObject (henv : env.Ample) (h : autoSkip p = 125 :: x) :
    parseValue env (n + 1) (123 :: p) = .ok (.object .nil, autoSkip x) := by
  have hcur : getChar (123 :: p) = 125 :: x := h
  rw [parseValue, if_neg (by decide), if_neg (by decide), if_neg (by decide),
    if_neg (by decide), if_neg (by decide), if_pos rfl]
  dsimp only
  rw [hcur, if_neg (by simp [henv.elem])]
  exact if_pos rfl

theorem parseValue_object (henv : env.Ample) {members : Members}
    (hp : (autoSkip p).head? ≠ some 125)
    (h : parseMembers env n (autoSkip p) = .ok (members, rest)) :
    parseValue env (n + 1) (123 :: p) = .ok (.object members, rest) := by
  have hcur : getChar (123 :: p) = autoSkip p := rfl
  rw [parseValue, if_neg (by decide), if_neg (by decide), if_neg (by decide),
    if_neg (by decide), if_neg (by decide), if_pos rfl]
  dsimp only
  rw [hcur, if_neg (by simp [henv.elem]), if_neg hp, h]
  rfl

theorem parseItems_last (h : parseValue env n p = .ok (e, 93 :: x)) :
    parseItems env (n + 1) p = .ok (.cons e .nil, autoSkip x) := by
  rw [parseItems, h]
  rfl

theorem parseItems_more {items : Items} (h : parseValue env n p = .ok (e, 44 :: x))
    (hmore : parseItems env n (autoSkip x) = .ok (items, rest)) :
    parseItems env (n + 1) p = .ok (.cons e items, rest) := by
  have hcur : getChar (44 :: x) = autoSkip x := rfl
  rw [parseItems, h]
  simp only [bind, Except.bind, hcur, hmore]
  rfl

theorem parseMembers_last (henv : env.Ample) {y name : Bytes}
    (hname : parseString env (34 :: p) = .ok (name, 58 :: y))
    (h : parseValue env n (autoSkip y) = .ok (e, 125 :: x)) :
    parseMembers env (n + 1) (34 :: p) = .ok (.cons name e .nil, autoSkip x) := by
  have hcur : getChar (58 :: y) = autoSkip y := rfl
  rw [parseMembers, if_neg (by simp), hname]
  simp only [bind, Except.bind, hcur, h]
  rw [if_neg (by simp), if_neg (by simp [henv.member])]
  rfl

theorem parseMembers_more (henv : env.Ample) {y name : Bytes} {members : Members}
    (hname : parseString env (34 :: p) = .ok (name, 58 :: y))
    (h : parseValue env n (autoSkip y) = .ok (e, 44 :: x))
    (hmore : parseMembers env n (autoSkip x) = .ok (members, rest)) :
    parseMembers env (n + 1) (34 :: p) = .ok (.cons name e members, rest) := by
  have hcur : getChar (58 :: y) = autoSkip y := rfl
  have hnext : getChar (44 :: x) = autoSkip x := rfl
  rw [parseMembers, if_neg (by simp), hname]
  simp only [bind, Except.bind, hcur, h, hnext, hmore]
  rw [if_neg (by simp), if_neg (by simp [henv.member]), if_neg (by simp)]
  rfl

theorem skip_to (hw : Blank w) (hc : isWhitespace c = false) : autoSkip (w ++ c :: x) = c :: x := by
  rw [autoSkip_blank hw]
  exact settled_cons hc x

theorem value_front {v : Bytes} {d : UInt8} (hw : Blank w) (hc : isWhitespace c = false)
    (hne : c ≠ d) (x : Bytes) : (autoSkip (w ++ (c :: v ++ x))).head? ≠ some d := by
  rw [cons_append, skip_to hw hc]
  simpa using hne

theorem follows_blank (hw : Blank w) (hx : Follows x) : Follows (w ++ x) := by
  cases w with
  | nil => exact hx
  | cons c w =>
    intro d hd
    obtain rfl : c = d := by simpa using hd
    have hblank := hw c (mem_cons_self ..)
    simp only [isWhitespace, decide_eq_true_eq] at hblank
    rcases hblank with rfl | rfl | rfl | rfl | rfl | rfl <;> decide

theorem follows_cons (hc : isDigit c = false ∧ c ≠ 46 ∧ c ≠ 101 ∧ c ≠ 69) (x : Bytes) :
    Follows (c :: x) := by
  intro d hd
  obtain rfl : c = d := by simpa using hd
  exact hc

theorem number_front (h : NumberText b) :
    ∃ c rest, b = c :: rest ∧ (c = 45 ∨ isDigit c = true) := by
  obtain ⟨sign, int, frac, exp, hsign, hint, -, -, rfl⟩ := h
  rcases hsign with rfl | rfl
  · rcases hint with rfl | ⟨hdigits, -⟩
    · exact ⟨48, _, rfl, .inr (by decide)⟩
    · obtain ⟨d, rest, rfl, hd, -⟩ := digits_front hdigits []
      exact ⟨d, _, rfl, .inr hd⟩
  · exact ⟨45, _, rfl, .inl rfl⟩

theorem number_char : ∀ c : UInt8, c = 45 ∨ isDigit c = true → isWhitespace c = false ∧ c ≠ 93 :=
  forall_uint8 (by decide +kernel)

def Parsed (env : Env) : Part → Bytes → Prop
  | .value, v => (∃ c rest, v = c :: rest ∧ isWhitespace c = false ∧ c ≠ 93) ∧
      ∀ x n, Follows x → 2 * v.length + 1 ≤ n →
        ∃ e, parseValue env n (v ++ x) = .ok (e, autoSkip x)
  | .items, b => (∀ x, (autoSkip (b ++ x)).head? ≠ some 93) ∧
      ∀ x n, 2 * b.length + 2 ≤ n →
        ∃ items, parseItems env n (autoSkip (b ++ 93 :: x)) = .ok (items, autoSkip x)
  | .members, b => (∀ x, (autoSkip (b ++ x)).head? ≠ some 125) ∧
      ∀ x n, 2 * b.length + 2 ≤ n →
        ∃ members, parseMembers env n (autoSkip (b ++ 125 :: x)) = .ok (members, autoSkip x)

theorem literal_parsed (henv : env.Ample) (x : Bytes) (n : ℕ) :
    parseValue env (n + 1) (lit "null" ++ x) = .ok (.null, autoSkip x) ∧
      parseValue env (n + 1) (lit "true" ++ x) = .ok (.boolean true, autoSkip x) ∧
      parseValue env (n + 1) (lit "false" ++ x) = .ok (.boolean false, autoSkip x) := by
  have hnull : lit "null" = [110, 117, 108, 108] := by decide
  have htrue : lit "true" = [116, 114, 117, 101] := by decide
  have hfalse : lit "false" = [102, 97, 108, 115, 101] := by decide
  simp [hnull, htrue, hfalse, parseValue, parseNull, parseBoolean, newElem, henv.elem, skip]

theorem parsed_of_derives (henv : env.Ample) {p : Part}
    (h : (relaxed.within env.strtod).Derives p b) : Parsed env p b := by
  induction h with
  | null =>
    refine ⟨⟨110, _, rfl, by decide, by decide⟩, fun x n _ hn => ?_⟩
    obtain ⟨m, rfl⟩ : ∃ m, n = m + 1 := ⟨n - 1, by omega⟩
    exact ⟨_, (literal_parsed henv x m).1⟩
  | true =>
    refine ⟨⟨116, _, rfl, by decide, by decide⟩, fun x n _ hn => ?_⟩
    obtain ⟨m, rfl⟩ : ∃ m, n = m + 1 := ⟨n - 1, by omega⟩
    exact ⟨_, (literal_parsed henv x m).2.1⟩
  | false =>
    refine ⟨⟨102, _, rfl, by decide, by decide⟩, fun x n _ hn => ?_⟩
    obtain ⟨m, rfl⟩ : ∃ m, n = m + 1 := ⟨n - 1, by omega⟩
    exact ⟨_, (literal_parsed henv x m).2.2⟩
  | @number b hb =>
    obtain ⟨c, rest, rfl, hc⟩ := number_front hb.1
    refine ⟨⟨c, rest, rfl, number_char c hc⟩, fun x n hx hn => ?_⟩
    obtain ⟨m, rfl⟩ : ∃ m, n = m + 1 := ⟨n - 1, by omega⟩
    have hparse := parseNumber_text henv hb.1 hb.2 hx
    rw [cons_append, ← parseValue_number (n := m) hc] at hparse
    exact ⟨_, hparse⟩
  | @string b hb =>
    refine ⟨⟨34, _, rfl, by decide, by decide⟩, fun x n _ hn => ?_⟩
    obtain ⟨m, rfl⟩ : ∃ m, n = m + 1 := ⟨n - 1, by omega⟩
    have hbytes : 34 :: (b ++ [34]) ++ x = 34 :: (b ++ 34 :: x) := by simp
    rw [hbytes]
    exact ⟨_, parseValue_string (parseString_text henv.elem hb x)⟩
  | @emptyArray w hw =>
    refine ⟨⟨91, _, rfl, by decide, by decide⟩, fun x n _ hn => ?_⟩
    obtain ⟨m, rfl⟩ : ∃ m, n = m + 1 := ⟨n - 1, by omega⟩
    have hbytes : 91 :: (w ++ [93]) ++ x = 91 :: (w ++ 93 :: x) := by simp
    rw [hbytes]
    exact ⟨_, parseValue_emptyArray henv (skip_to hw (by decide))⟩
  | @array b _ ih =>
    refine ⟨⟨91, _, rfl, by decide, by decide⟩, fun x n _ hn => ?_⟩
    obtain ⟨m, rfl⟩ : ∃ m, n = m + 1 := ⟨n - 1, by omega⟩
    have hbytes : 91 :: (b ++ [93]) ++ x = 91 :: (b ++ 93 :: x) := by simp
    simp only [length_cons, length_append, length_nil] at hn
    obtain ⟨items, hitems⟩ := ih.2 x m (by omega)
    rw [hbytes]
    exact ⟨_, parseValue_array henv (ih.1 _) hitems⟩
  | @emptyObject w hw =>
    refine ⟨⟨123, _, rfl, by decide, by decide⟩, fun x n _ hn => ?_⟩
    obtain ⟨m, rfl⟩ : ∃ m, n = m + 1 := ⟨n - 1, by omega⟩
    have hbytes : 123 :: (w ++ [125]) ++ x = 123 :: (w ++ 125 :: x) := by simp
    rw [hbytes]
    exact ⟨_, parseValue_emptyObject henv (skip_to hw (by decide))⟩
  | @object b _ ih =>
    refine ⟨⟨123, _, rfl, by decide, by decide⟩, fun x n _ hn => ?_⟩
    obtain ⟨m, rfl⟩ : ∃ m, n = m + 1 := ⟨n - 1, by omega⟩
    have hbytes : 123 :: (b ++ [125]) ++ x = 123 :: (b ++ 125 :: x) := by simp
    simp only [length_cons, length_append, length_nil] at hn
    obtain ⟨members, hmembers⟩ := ih.2 x m (by omega)
    rw [hbytes]
    exact ⟨_, parseValue_object henv (ih.1 _) hmembers⟩
  | @item w v y hw _ hy ih =>
    obtain ⟨⟨c, rest, rfl, hc, hne⟩, hv⟩ := ih
    refine ⟨fun x => ?_, fun x n hn => ?_⟩
    · rw [append_assoc, append_assoc]
      exact value_front hw hc hne _
    · obtain ⟨m, rfl⟩ : ∃ m, n = m + 1 := ⟨n - 1, by omega⟩
      simp only [length_append] at hn
      obtain ⟨e, he⟩ := hv (y ++ 93 :: x) m (follows_blank hy (follows_cons (by decide) x))
        (by omega)
      rw [skip_to hy (by decide)] at he
      rw [append_assoc, append_assoc, cons_append, skip_to hw hc]
      exact ⟨_, parseItems_last he⟩
  | @items w v y b hw _ hy _ ihv ih =>
    obtain ⟨⟨c, rest, rfl, hc, hne⟩, hv⟩ := ihv
    refine ⟨fun x => ?_, fun x n hn => ?_⟩
    · rw [append_assoc, append_assoc]
      exact value_front hw hc hne _
    · obtain ⟨m, rfl⟩ : ∃ m, n = m + 1 := ⟨n - 1, by omega⟩
      simp only [length_append, length_cons] at hn
      obtain ⟨e, he⟩ := hv (y ++ 44 :: (b ++ 93 :: x)) m
        (follows_blank hy (follows_cons (by decide) _)) (by
          simp only [length_cons]
          omega)
      obtain ⟨items, hitems⟩ := ih.2 x m (by omega)
      have hbytes : w ++ (c :: rest ++ (y ++ 44 :: b)) ++ 93 :: x =
          w ++ c :: (rest ++ (y ++ 44 :: (b ++ 93 :: x))) := by simp
      rw [skip_to hy (by decide)] at he
      rw [hbytes, skip_to hw hc]
      exact ⟨_, parseItems_more he hitems⟩
  | @member w name y z v t hw hname hy hz _ ht ih =>
    obtain ⟨⟨c, rest, rfl, hc, hne⟩, hv⟩ := ih
    refine ⟨fun x => ?_, fun x n hn => ?_⟩
    · rw [append_assoc, cons_append, skip_to hw (by decide)]
      simp
    · obtain ⟨m, rfl⟩ : ∃ m, n = m + 1 := ⟨n - 1, by omega⟩
      simp only [length_append, length_cons] at hn
      obtain ⟨e, he⟩ := hv (t ++ 125 :: x) m (follows_blank ht (follows_cons (by decide) x)) (by
        simp only [length_cons]
        omega)
      have hbytes : w ++ 34 :: (name ++ 34 :: (y ++ 58 :: (z ++ (c :: rest ++ t)))) ++ 125 :: x =
          w ++ 34 :: (name ++ 34 :: (y ++ 58 :: (z ++ c :: (rest ++ (t ++ 125 :: x))))) := by
        simp
      have hstring := parseString_text henv.elem hname
        (y ++ 58 :: (z ++ c :: (rest ++ (t ++ 125 :: x))))
      rw [skip_to hy (by decide)] at hstring
      rw [skip_to ht (by decide), cons_append, ← skip_to hz hc] at he
      rw [hbytes, skip_to hw (by decide)]
      exact ⟨_, parseMembers_last henv hstring he⟩
  | @members w name y z v t b hw hname hy hz _ ht _ ihv ih =>
    obtain ⟨⟨c, rest, rfl, hc, hne⟩, hv⟩ := ihv
    refine ⟨fun x => ?_, fun x n hn => ?_⟩
    · rw [append_assoc, cons_append, skip_to hw (by decide)]
      simp
    · obtain ⟨m, rfl⟩ : ∃ m, n = m + 1 := ⟨n - 1, by omega⟩
      simp only [length_append, length_cons] at hn
      obtain ⟨e, he⟩ := hv (t ++ 44 :: (b ++ 125 :: x)) m
        (follows_blank ht (follows_cons (by decide) _)) (by
          simp only [length_cons]
          omega)
      obtain ⟨members, hmembers⟩ := ih.2 x m (by omega)
      have hbytes : w ++ 34 :: (name ++ 34 :: (y ++ 58 :: (z ++ (c :: rest ++ (t ++ 44 :: b))))) ++
          125 :: x = w ++ 34 :: (name ++ 34 :: (y ++ 58 :: (z ++ c :: (rest ++
            (t ++ 44 :: (b ++ 125 :: x)))))) := by
        simp
      have hstring := parseString_text henv.elem hname
        (y ++ 58 :: (z ++ c :: (rest ++ (t ++ 44 :: (b ++ 125 :: x)))))
      rw [skip_to hy (by decide)] at hstring
      rw [skip_to ht (by decide), cons_append, ← skip_to hz hc] at he
      rw [hbytes, skip_to hw (by decide)]
      exact ⟨_, parseMembers_more henv hstring he hmembers⟩

theorem literal_sound {l : Bytes} (h : p.take l.length = l) :
    ∃ w, Blank w ∧ p = l ++ (w ++ skip p l.length) ∧ Settled (skip p l.length) := by
  obtain ⟨w, hw, hp⟩ := autoSkip_split (p.drop l.length)
  refine ⟨w, hw, ?_, settled_autoSkip _⟩
  rw [skip, ← hp]
  conv_lhs => rw [← take_append_drop l.length p, h]

theorem parseNull_sound (h : parseNull env p = .ok (e, rest)) :
    ∃ w, Blank w ∧ p = lit "null" ++ (w ++ rest) ∧ Settled rest := by
  unfold parseNull newElem at h
  split_ifs at h with _ htext
  · cases h
  · cases h
  · obtain ⟨-, rfl⟩ := Prod.mk.inj (Except.ok.inj h)
    exact literal_sound (l := lit "null") (not_not.mp htext)
  · cases h

theorem parseBoolean_sound (h : parseBoolean env p = .ok (e, rest)) :
    ∃ l w, (l = lit "true" ∨ l = lit "false") ∧ Blank w ∧ p = l ++ (w ++ rest) ∧
      Settled rest := by
  unfold parseBoolean at h
  split_ifs at h with _ htrue hfalse
  · obtain ⟨-, rfl⟩ := Prod.mk.inj (Except.ok.inj h)
    obtain ⟨w, hw, hp, hsettled⟩ := literal_sound (l := lit "true") htrue
    exact ⟨_, w, .inl rfl, hw, hp, hsettled⟩
  · obtain ⟨-, rfl⟩ := Prod.mk.inj (Except.ok.inj h)
    obtain ⟨w, hw, hp, hsettled⟩ := literal_sound (l := lit "false") hfalse
    exact ⟨_, w, .inr rfl, hw, hp, hsettled⟩
  · cases h
  · cases h

theorem head_eq (h : p.head? = some c) : ∃ x, p = c :: x := by
  cases p with
  | nil => cases h
  | cons d x => exact ⟨x, by rw [Option.some.inj h]⟩

theorem items_blank {g : Lexicon} (hw : g.Blanks w) (h : g.Derives .items b) :
    g.Derives .items (w ++ b) := by
  have happ (u : Bytes) (hu : g.Blanks u) : g.Blanks (w ++ u) := fun c hc =>
    (mem_append.mp hc).elim (hw c) (hu c)
  cases h with
  | item hu hv hx =>
    rw [← append_assoc]
    exact .item (happ _ hu) hv hx
  | items hu hv hx hb =>
    rw [← append_assoc]
    exact .items (happ _ hu) hv hx hb

theorem members_blank {g : Lexicon} (hw : g.Blanks w) (h : g.Derives .members b) :
    g.Derives .members (w ++ b) := by
  have happ (u : Bytes) (hu : g.Blanks u) : g.Blanks (w ++ u) := fun c hc =>
    (mem_append.mp hc).elim (hw c) (hu c)
  cases h with
  | member hu hname hx hy hv hz =>
    rw [← append_assoc]
    exact .member (happ _ hu) hname hx hy hv hz
  | members hu hname hx hy hv hz hb =>
    rw [← append_assoc]
    exact .members (happ _ hu) hname hx hy hv hz hb

def Sound (env : Env) : Part → Bytes → Bytes → Prop
  | .value, p, rest => ∃ v w, (relaxed.within env.strtod).Derives .value v ∧ Blank w ∧
      p = v ++ (w ++ rest) ∧ Settled rest
  | .items, p, rest => ∃ b w, (relaxed.within env.strtod).Derives .items b ∧ Blank w ∧
      p = b ++ 93 :: (w ++ rest) ∧ Settled rest
  | .members, p, rest => ∃ b w, (relaxed.within env.strtod).Derives .members b ∧ Blank w ∧
      p = b ++ 125 :: (w ++ rest) ∧ Settled rest

theorem items_sound
    (hvalue : ∀ p e rest, parseValue env n p = .ok (e, rest) → Sound env .value p rest)
    (hitems : ∀ p is rest, parseItems env n p = .ok (is, rest) → Sound env .items p rest)
    {is : Items} (h : parseItems env (n + 1) p = .ok (is, rest)) : Sound env .items p rest := by
  rw [parseItems] at h
  cases hv : parseValue env n p with
  | error e =>
    rw [hv] at h
    cases h
  | ok r =>
    obtain ⟨e, q⟩ := r
    obtain ⟨v, w, hderives, hw, rfl, -⟩ := hvalue p e q hv
    rw [hv] at h
    simp only [bind, Except.bind] at h
    split_ifs at h with hlast hmore
    · obtain ⟨x, rfl⟩ := head_eq hlast
      obtain ⟨-, rfl⟩ := Prod.mk.inj (Except.ok.inj h)
      obtain ⟨y, hy, hx⟩ := autoSkip_split x
      refine ⟨[] ++ (v ++ w), y, .item (fun c hc => absurd hc not_mem_nil) hderives hw, hy,
        ?_, settled_autoSkip x⟩
      conv_lhs => rw [hx]
      simp [getChar]
    · obtain ⟨x, rfl⟩ := head_eq hmore
      obtain ⟨y, hy, hx⟩ := autoSkip_split x
      cases hrest : parseItems env n (getChar (44 :: x)) with
      | error e =>
        rw [hrest] at h
        cases h
      | ok r =>
        obtain ⟨is', q'⟩ := r
        rw [hrest] at h
        obtain ⟨-, rfl⟩ := Prod.mk.inj (Except.ok.inj h)
        obtain ⟨b, u, hb, hu, hq, hsettled⟩ := hitems _ is' q' hrest
        refine ⟨[] ++ (v ++ (w ++ 44 :: (y ++ b))), u,
          .items (fun c hc => absurd hc not_mem_nil) hderives hw (items_blank hy hb), hu,
          ?_, hsettled⟩
        rw [show getChar (44 :: x) = autoSkip x from rfl] at hq
        rw [hx, hq]
        simp
    · cases h

theorem members_sound
    (hvalue : ∀ p e rest, parseValue env n p = .ok (e, rest) → Sound env .value p rest)
    (hmembers : ∀ p ms rest, parseMembers env n p = .ok (ms, rest) → Sound env .members p rest)
    {ms : Members} (h : parseMembers env (n + 1) p = .ok (ms, rest)) :
    Sound env .members p rest := by
  rw [parseMembers] at h
  by_cases hquote : p.head? ≠ some 34
  · rw [if_pos hquote] at h
    cases h
  rw [if_neg hquote] at h
  cases hname : parseString env p with
  | error e =>
    rw [hname] at h
    cases h
  | ok r =>
    obtain ⟨name, q⟩ := r
    obtain ⟨b, w, hb, hw, rfl, -⟩ := parseString_sound hname
    rw [hname] at h
    simp only [bind, Except.bind] at h
    by_cases hcolon : q.head? ≠ some 58
    · rw [if_pos hcolon] at h
      cases h
    rw [if_neg hcolon] at h
    obtain ⟨x, rfl⟩ := head_eq (not_not.mp hcolon)
    obtain ⟨y, hy, hx⟩ := autoSkip_split x
    cases hv : parseValue env n (getChar (58 :: x)) with
    | error e =>
      rw [hv] at h
      cases h
    | ok r =>
      obtain ⟨e, q⟩ := r
      obtain ⟨v, z, hderives, hz, hq, -⟩ := hvalue _ e q hv
      rw [show getChar (58 :: x) = autoSkip x from rfl] at hq
      rw [hv] at h
      dsimp only at h
      split_ifs at h with _ hlast hmore
      · obtain ⟨t, rfl⟩ := head_eq hlast
        obtain ⟨-, rfl⟩ := Prod.mk.inj (Except.ok.inj h)
        obtain ⟨u, hu, ht⟩ := autoSkip_split t
        refine ⟨_, u, .member (fun c hc => absurd hc not_mem_nil) hb hw hy hderives hz, hu,
          ?_, settled_autoSkip t⟩
        rw [hx, hq]
        conv_lhs => rw [ht]
        simp [getChar]
      · obtain ⟨t, rfl⟩ := head_eq hmore
        obtain ⟨u, hu, ht⟩ := autoSkip_split t
        cases hrest : parseMembers env n (getChar (44 :: t)) with
        | error e =>
          rw [hrest] at h
          cases h
        | ok r =>
          obtain ⟨ms', q'⟩ := r
          rw [hrest] at h
          obtain ⟨-, rfl⟩ := Prod.mk.inj (Except.ok.inj h)
          obtain ⟨b', u', hb', hu', hq', hsettled⟩ := hmembers _ ms' q' hrest
          refine ⟨_, u', .members (fun c hc => absurd hc not_mem_nil) hb hw hy hderives hz
            (members_blank hu hb'), hu', ?_, hsettled⟩
          rw [show getChar (44 :: t) = autoSkip t from rfl] at hq'
          rw [hx, hq, ht, hq']
          simp
      · cases h
      · cases h

theorem value_sound
    (hitems : ∀ p is rest, parseItems env n p = .ok (is, rest) → Sound env .items p rest)
    (hmembers : ∀ p ms rest, parseMembers env n p = .ok (ms, rest) → Sound env .members p rest)
    (h : parseValue env (n + 1) p = .ok (e, rest)) : Sound env .value p rest := by
  cases p with
  | nil => cases h
  | cons c p =>
    rw [parseValue] at h
    split at h
    · obtain ⟨w, hw, hp, hsettled⟩ := parseNull_sound h
      exact ⟨_, w, .null, hw, hp, hsettled⟩
    split at h
    · obtain ⟨l, w, hl, hw, hp, hsettled⟩ := parseBoolean_sound h
      rcases hl with rfl | rfl
      · exact ⟨_, w, .true, hw, hp, hsettled⟩
      · exact ⟨_, w, .false, hw, hp, hsettled⟩
    split at h
    · obtain ⟨b, w, hb, hrange, hw, hp, hsettled⟩ := parseNumber_sound h
      exact ⟨b, w, .number ⟨hb, hrange⟩, hw, hp, hsettled⟩
    split at h
    · cases hstring : parseString env (c :: p) with
      | error e =>
        rw [hstring] at h
        cases h
      | ok r =>
        rw [hstring] at h
        obtain ⟨-, rfl⟩ := Prod.mk.inj (Except.ok.inj h)
        obtain ⟨b, w, hb, hw, hp, hsettled⟩ := parseString_sound hstring
        exact ⟨_, w, .string hb, hw, by rw [hp]; simp, hsettled⟩
    obtain ⟨y, hy, hp⟩ := autoSkip_split p
    rw [show getChar (c :: p) = autoSkip p from rfl] at h
    generalize autoSkip p = q at h hp
    subst hp
    split at h
    · next harray =>
      dsimp only at h
      split at h
      · cases h
      split at h
      · next hempty =>
        obtain ⟨x, rfl⟩ := head_eq hempty
        obtain ⟨-, rfl⟩ := Prod.mk.inj (Except.ok.inj h)
        obtain ⟨w, hw, hx⟩ := autoSkip_split x
        refine ⟨_, w, .emptyArray hy, hw, ?_, settled_autoSkip x⟩
        rw [harray]
        conv_lhs => rw [hx]
        simp [getChar]
      · cases hitem : parseItems env n q with
        | error e =>
          rw [hitem] at h
          cases h
        | ok r =>
          rw [hitem] at h
          obtain ⟨-, rfl⟩ := Prod.mk.inj (Except.ok.inj h)
          obtain ⟨b, w, hb, hw, rfl, hsettled⟩ := hitems q r.1 r.2 hitem
          refine ⟨_, w, .array (items_blank hy hb), hw, ?_, hsettled⟩
          rw [harray]
          simp
    split at h
    · next hobject =>
      dsimp only at h
      split at h
      · cases h
      split at h
      · next hempty =>
        obtain ⟨x, rfl⟩ := head_eq hempty
        obtain ⟨-, rfl⟩ := Prod.mk.inj (Except.ok.inj h)
        obtain ⟨w, hw, hx⟩ := autoSkip_split x
        refine ⟨_, w, .emptyObject hy, hw, ?_, settled_autoSkip x⟩
        rw [hobject]
        conv_lhs => rw [hx]
        simp [getChar]
      · cases hmember : parseMembers env n q with
        | error e =>
          rw [hmember] at h
          cases h
        | ok r =>
          rw [hmember] at h
          obtain ⟨-, rfl⟩ := Prod.mk.inj (Except.ok.inj h)
          obtain ⟨b, w, hb, hw, rfl, hsettled⟩ := hmembers q r.1 r.2 hmember
          refine ⟨_, w, .object (members_blank hy hb), hw, ?_, hsettled⟩
          rw [hobject]
          simp
    · cases h

theorem runs_sound (n : ℕ) :
    (∀ p e rest, parseValue env n p = .ok (e, rest) → Sound env .value p rest) ∧
    (∀ p is rest, parseItems env n p = .ok (is, rest) → Sound env .items p rest) ∧
    (∀ p ms rest, parseMembers env n p = .ok (ms, rest) → Sound env .members p rest) := by
  induction n with
  | zero =>
    refine ⟨fun p e rest h => ?_, fun p is rest h => ?_, fun p ms rest h => ?_⟩
    · cases h
    · cases h
    · cases h
  | succ n ih =>
    obtain ⟨hvalue, hitems, hmembers⟩ := ih
    exact ⟨fun p e rest h => value_sound hitems hmembers h,
      fun p is rest h => items_sound hvalue hitems h,
      fun p ms rest h => members_sound hvalue hmembers h⟩

/-- vox_json_parse takes the whole of a text, white space behind the value included, if and only
if it is a text of the relaxed grammar whose numbers strtod can read. The texts of RFC 8259 are
among them. -/
theorem accepted_iff (henv : env.Ample) (text : Bytes) :
    ((∃ e size, (jsonParse env text).1 = some (e, size) ∧ Blank (text.drop size)) ↔
      (relaxed.within env.strtod).Text text) ∧
    ((rfc8259.within env.strtod).Text text → (relaxed.within env.strtod).Text text) := by
  refine ⟨⟨?_, ?_⟩, fun h => h.mono (rfc8259_le env.strtod)⟩
  · rintro ⟨e, size, hparse, hblank⟩
    unfold jsonParse at hparse
    cases hrun : parseValue env (2 * text.length + 2) (autoSkip text) with
    | error err =>
      rw [hrun] at hparse
      cases hparse
    | ok r =>
      obtain ⟨e', rest⟩ := r
      rw [hrun] at hparse
      obtain ⟨-, rfl⟩ := Prod.mk.inj (Option.some.inj hparse)
      obtain ⟨v, x, hv, hx, hcur, -⟩ := (runs_sound _).1 _ e' rest hrun
      obtain ⟨w, hw, htext⟩ := autoSkip_split text
      have hfull : text = w ++ (v ++ x) ++ rest := by
        rw [htext, hcur]
        simp
      have hsize : text.length - rest.length = (w ++ (v ++ x)).length := by
        conv_lhs => rw [hfull]
        rw [length_append]
        omega
      rw [hsize] at hblank
      conv at hblank => rw [hfull, drop_left]
      refine ⟨w, v, x ++ rest, hw, hv, fun c hc => ?_, by rw [hfull]; simp⟩
      rcases mem_append.mp hc with hc | hc
      · exact hx c hc
      · exact hblank c hc
  · rintro ⟨w, v, x, hw, hv, hx, rfl⟩
    obtain ⟨⟨c, rest, rfl, hc, -⟩, hrun⟩ := parsed_of_derives henv hv
    have hfollows : Follows (x ++ []) := follows_blank hx (by simp [Follows])
    rw [append_nil] at hfollows
    have hnil : autoSkip x = [] := by
      have hskip := autoSkip_blank hx []
      rwa [append_nil] at hskip
    obtain ⟨e, he⟩ := hrun x (2 * (w ++ (c :: rest ++ x)).length + 2) hfollows (by
      simp only [length_append]
      omega)
    refine ⟨e, (w ++ (c :: rest ++ x)).length, ?_, by simp [Blank]⟩
    rw [jsonParse, cons_append, skip_to hw hc, ← cons_append, he, hnil]
    rfl

def sampleEnv : Env := ⟨true, true, fun _ => true, fun _ => true, fun _ => (some 0, false),
  fun _ => []⟩

theorem array_accepted :
    ((∃ e size, (jsonParse sampleEnv (lit " [1, true]\n")).1 = some (e, size) ∧
        Blank ((lit " [1, true]\n").drop size)) ↔
      (relaxed.within sampleEnv.strtod).Text (lit " [1, true]\n")) ∧
    ((rfc8259.within sampleEnv.strtod).Text (lit " [1, true]\n") →
      (relaxed.within sampleEnv.strtod).Text (lit " [1, true]\n")) :=
  accepted_iff ⟨rfl, rfl, fun _ => rfl⟩ _

theorem rfcChars_one (h : RfcChars b) : 1 ∉ b := by
  induction h with
  | nil => exact not_mem_nil
  | ascii hlow _ _ _ _ ih =>
    intro hmem
    rcases mem_cons.mp hmem with rfl | hmem
    · exact absurd hlow (by decide)
    · exact ih hmem
  | unicode hc _ ih =>
    intro hmem
    rcases mem_append.mp hmem with hmem | hmem
    · exact absurd (utf8_high hc 1 hmem) (by decide)
    · exact ih hmem
  | escape he _ ih =>
    intro hmem
    rcases mem_cons.mp hmem with heq | hmem
    · exact absurd heq (by decide)
    rcases mem_cons.mp hmem with rfl | hmem
    · exact absurd he (by decide)
    · exact ih hmem
  | hex ha hb hc hd _ ih =>
    intro hmem
    simp only [mem_cons] at hmem
    rcases hmem with heq | heq | rfl | rfl | rfl | rfl | hmem
    · exact absurd heq (by decide)
    · exact absurd heq (by decide)
    · exact absurd ha (by decide)
    · exact absurd hb (by decide)
    · exact absurd hc (by decide)
    · exact absurd hd (by decide)
    · exact ih hmem

theorem rfc_value_front {v : Bytes} (h : rfc8259.Derives .value v) :
    ∃ c rest, v = c :: rest ∧ c ≠ 11 ∧ (c = 34 → ∃ b, RfcChars b ∧ rest = b ++ [34]) := by
  cases h with
  | null => exact ⟨110, _, rfl, by decide, fun h => absurd h (by decide)⟩
  | true => exact ⟨116, _, rfl, by decide, fun h => absurd h (by decide)⟩
  | false => exact ⟨102, _, rfl, by decide, fun h => absurd h (by decide)⟩
  | number hn =>
    obtain ⟨c, rest, rfl, hc⟩ := number_front hn
    refine ⟨c, rest, rfl, ?_, ?_⟩
    · rintro rfl
      exact absurd hc (by decide)
    · rintro rfl
      exact absurd hc (by decide)
  | string hb => exact ⟨34, _, rfl, by decide, fun _ => ⟨_, hb, rfl⟩⟩
  | emptyArray => exact ⟨91, _, rfl, by decide, fun h => absurd h (by decide)⟩
  | array => exact ⟨91, _, rfl, by decide, fun h => absurd h (by decide)⟩
  | emptyObject => exact ⟨123, _, rfl, by decide, fun h => absurd h (by decide)⟩
  | object => exact ⟨123, _, rfl, by decide, fun h => absurd h (by decide)⟩

theorem rfc_text_front {text : Bytes} (hc : ¬ rfc8259.blank c) (h : rfc8259.Text (c :: text)) :
    c ≠ 11 ∧ (c = 34 → ∃ b x, RfcChars b ∧ text = b ++ 34 :: x) := by
  obtain ⟨w, v, x, hw, hv, -, heq⟩ := h
  obtain ⟨d, rest, rfl, hd, hstring⟩ := rfc_value_front hv
  cases w with
  | nil =>
    obtain ⟨rfl, rfl⟩ := List.cons.inj heq
    refine ⟨hd, fun hquote => ?_⟩
    obtain ⟨b, hb, rfl⟩ := hstring hquote
    exact ⟨b, x, hb, by simp⟩
  | cons e w =>
    obtain ⟨rfl, -⟩ := List.cons.inj heq
    exact absurd (hw c (mem_cons_self ..)) hc

def overflowEnv : Env := { sampleEnv with strtod := fun _ => (none, true) }

/-- A vertical tab is skipped, a control character may be in a string, and a number may be out of
the range of strtod. -/
theorem accepted_not_standard :
    ((jsonParse sampleEnv [11, 49]).1.map Prod.snd = some 2 ∧ ¬ rfc8259.Text [11, 49]) ∧
    ((jsonParse sampleEnv [34, 1, 34]).1.map Prod.snd = some 3 ∧ ¬ rfc8259.Text [34, 1, 34]) ∧
    ((jsonParse overflowEnv (lit "1e999")).1.isNone = true ∧ rfc8259.Text (lit "1e999")) := by
  refine ⟨⟨by decide, fun h => ?_⟩, ⟨by decide, fun h => ?_⟩, by decide, ?_⟩
  · have hblank : ¬ rfc8259.blank 11 := by
      rintro (h | h | h | h) <;> exact absurd h (by decide)
    exact (rfc_text_front hblank h).1 rfl
  · have hblank : ¬ rfc8259.blank 34 := by
      rintro (h | h | h | h) <;> exact absurd h (by decide)
    obtain ⟨b, x, hb, heq⟩ := (rfc_text_front hblank h).2 rfl
    cases b with
    | nil => exact absurd (List.cons.inj heq).1 (by decide)
    | cons c b =>
      obtain ⟨rfl, -⟩ := List.cons.inj heq
      exact rfcChars_one hb (mem_cons_self ..)
  · refine ⟨[], lit "1e999", [], by simp [Lexicon.Blanks], .number ?_, by simp [Lexicon.Blanks],
      by simp⟩
    refine ⟨[], lit "1", [], lit "e999", .inl rfl,
      .inr ⟨⟨by decide, forall_mem_of_all (by decide)⟩, by decide⟩, .inl rfl, .inr ?_, by decide⟩
    exact ⟨101, [], lit "999", .inl rfl, .inl rfl, ⟨by decide, forall_mem_of_all (by decide)⟩,
      by decide⟩

end Voxlib.Json
