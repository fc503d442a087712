import Voxlib.Regex.Positions

/-!
# Excess

apply_quantifier returns before it moves the pattern's pointer, so the braces are read once
more, as characters.
-/

namespace Voxlib.Regex
open CStr Decimal Automaton List

variable {bodies : Bodies} {tests numbered multiline : Bool} {h k : Heap}
  {frag : Fragment} {m : Meaning}

theorem Meaning.row_zero (m : Meaning) (n : ℕ) : (m.row n 0 0).lang = 0 := by
  unfold Meaning.row
  dsimp only
  split
  · exact mul_zero _
  · exact mul_zero _

def Barren (bodies : Bodies) (tests : Bool) (h k : Heap) (frag : Fragment) : Prop :=
  ∃ m : Meaning, Built bodies tests h k frag m ∧ m.lang = 0

section
variable (hb : Built bodies tests h k frag m)
include hb

theorem excess_atLeast {n : ℕ} (hn : 128 < n) (nonGreedy : Bool) :
    Barren bodies tests h (applyAtLeast k frag n nonGreedy).1
      (applyAtLeast k frag n nonGreedy).2.1 ∧ (applyAtLeast k frag n nonGreedy).2.2 = false := by
  obtain ⟨A, hg, -, -⟩ := hb.region
  have hlost : applyAtLeast k frag n nonGreedy =
      (k.addSplit.addSplit, ⟨k.length, k.addSplit.length⟩, false) := if_pos hn
  rw [hlost]
  exact ⟨⟨.lost, lost_built hg, rfl⟩, rfl⟩

theorem excess_between {n x : ℕ} (hpos : 0 < n) (hx : ¬ (n ≤ 128 ∧ x - n ≤ 128))
    (nonGreedy : Bool) : Barren bodies tests h (applyBetween k frag n x nonGreedy).1
      (applyBetween k frag n x nonGreedy).2.1 ∧
      (applyBetween k frag n x nonGreedy).2.2 = false := by
  have hlast := hb.last
  have hlen₀ : k.addSplit.addSplit.addSplit.length = k.length + 3 := by simp
  have hlen₁ : k.addSplit.addSplit.length = k.length + 2 := by simp
  obtain ⟨A, hg, hsA, hlA⟩ := hb.region
  by_cases hn : n ≤ 128
  · obtain ⟨hend, hrow⟩ := hb.copies hsA hlA (k.length + 2) hg.addSplit.addSplit.addSplit
      (fun q hq => by simp (disch := first | omega | (simp <;> omega) | fail)) (by omega)
      (by simp (disch := first | omega | (simp <;> omega) | fail)) n
    have hlost : applyBetween k frag n x nonGreedy =
        ((copyRow k.addSplit.addSplit.addSplit frag k.addSplit.addSplit.length n).1,
          ⟨k.addSplit.addSplit.length, k.addSplit.length⟩, false) :=
      (if_neg (Nat.not_lt.mpr hn)).trans (if_pos (by omega))
    rw [hlost, hlen₁, length_addSplit]
    refine ⟨⟨m.row n 0 0, ?_, m.row_zero n⟩, rfl⟩
    generalize (copyRow k.addSplit.addSplit.addSplit frag (k.length + 2) n).1 = j at hrow
    have hlen := hrow.length
    have hlinked := hrow.linked
    have hjopen := hrow.last_open
    rw [hlen₀] at hlen hlinked hjopen
    have hcases := endOf_cases (k.length + 2) (k.length + 3) n
    have hold (q : ℕ) (hq : q < k.length + 3) (hne : q ≠ k.length + 2) :
        j.node q = k.addSplit.addSplit.addSplit.node q := hrow.old q (by omega) hne
    have hnode (q : ℕ) (hq : q < k.length) : j.node q = k.node q := by
      rw [hold q (by omega) (by omega)]
      simp (disch := first | omega | (simp <;> omega) | fail)
    refine hb.row_built hrow.toGrown (fun q _ hq _ => hnode q hq) hlinked hpos (by omega)
      (by omega) (by omega) (by omega) ?_ (fun _ => words_open hjopen (by omega)) ?_
    · rw [hold _ (by omega) (by omega)]
      simp (disch := first | omega | (simp <;> omega) | fail)
    · refine words_open ?_ (by omega)
      rw [hnode _ hlast.2, hb.last_open]
  · have hlost : applyBetween k frag n x nonGreedy =
        (k.addSplit.addSplit.addSplit, ⟨k.addSplit.addSplit.length, k.addSplit.length⟩, false) :=
      if_pos (Nat.not_le.mp hn)
    rw [hlost, hlen₁, length_addSplit]
    refine ⟨⟨.lost, unlinked_built hg.addSplit.addSplit.addSplit (own_new (by omega))
      (own_new (by omega)) (by omega) ?_ ?_, rfl⟩, rfl⟩
    · simp (disch := first | omega | (simp <;> omega) | fail)
    · simp (disch := first | omega | (simp <;> omega) | fail)

theorem excess_built {q : Quantifier} (hq : ¬ q.Fits) (nonGreedy : Bool) {rest : Bytes}
    (hrest : rest.headD 0 ≠ 63) :
    Barren bodies tests h (applyQuantifier k frag (q.text ++ (lazyText nonGreedy ++ rest))).1
      (applyQuantifier k frag (q.text ++ (lazyText nonGreedy ++ rest))).2.1 ∧
    (applyQuantifier k frag (q.text ++ (lazyText nonGreedy ++ rest))).2.2 =
      q.text ++ (lazyText nonGreedy ++ rest) := by
  cases q with
  | star => exact absurd trivial hq
  | plus => exact absurd trivial hq
  | optional => exact absurd trivial hq
  | exactly n => exact absurd trivial hq
  | atLeast n =>
    have hn : 128 < n := Nat.not_le.mp hq
    obtain ⟨hbarren, hkept⟩ := excess_atLeast hb hn nonGreedy
    simp only [Quantifier.text, cons_append, append_assoc, nil_append,
      applyQuantifier_brace]
    rw [read_atLeast hrest nonGreedy, buildCounted, if_neg (by omega)]
    refine ⟨hbarren, ?_⟩
    rw [hkept]
    rfl
  | between n x =>
    simp only [Quantifier.Fits, not_or] at hq
    obtain ⟨hx, hn, hfits⟩ := hq
    obtain ⟨hbarren, hkept⟩ := excess_between hb (Nat.pos_of_ne_zero hn) hfits nonGreedy
    simp only [Quantifier.text, cons_append, append_assoc, nil_append,
      applyQuantifier_brace]
    rw [read_between hrest nonGreedy, buildCounted, if_pos (Nat.not_le.mp hx), if_neg hn]
    refine ⟨hbarren, ?_⟩
    rw [hkept]
    rfl

end

def Term.ofChars : Bytes → Factor → Term
  | [], f => .one f
  | c :: p, f => .more (.plain (.char c)) (ofChars p f)

section Chars

variable {p : Bytes} {f : Factor}

theorem Term.ofChars_text (p : Bytes) (f : Factor) : (ofChars p f).text = p ++ f.text := by
  induction p with
  | nil => rfl
  | cons c p ih => exact congrArg (c :: ·) ih

theorem Term.ofChars_ok (hp : ∀ c ∈ p, isLiteral c = true) (hf : f.Ok) : (ofChars p f).Ok := by
  induction p with
  | nil => exact hf
  | cons c p ih =>
    exact ⟨hp c mem_cons_self, ih fun d hd => hp d (mem_cons_of_mem c hd)⟩

theorem Term.ofChars_all {P : Quantifier → Prop} (hf : f.All P) : (ofChars p f).All P := by
  induction p with
  | nil => exact hf
  | cons c p ih => exact ⟨trivial, ih⟩

theorem Term.ofChars_flat (hf : f.Flat) : (ofChars p f).Flat := by
  induction p with
  | nil => exact hf
  | cons c p ih => exact ⟨trivial, ih⟩

theorem Term.ofChars_slashOk (hf : f.SlashOk true) : (ofChars p f).SlashOk true := by
  induction p with
  | nil => exact hf
  | cons c p ih => exact ⟨trivial, ih⟩

end Chars

def closingBrace (nonGreedy : Bool) : Factor :=
  if nonGreedy then .repeated (.char 125) .optional false else .plain (.char 125)

theorem closingBrace_text (nonGreedy : Bool) :
    (closingBrace nonGreedy).text = 125 :: lazyText nonGreedy := by
  cases nonGreedy <;> rfl

theorem decimal_literal (n : ℕ) : ∀ c ∈ decimal n, isLiteral c = true := by
  intro c hc
  obtain ⟨hlo, hhi⟩ := decimal_digits n c hc
  simp [isLiteral, ← UInt8.toNat_inj]
  omega

theorem excess_text {q : Quantifier} (hq : ¬ q.Fits) :
    ∃ p : Bytes, q.text = 123 :: (p ++ [125]) ∧ ∀ c ∈ p, isLiteral c = true := by
  cases q with
  | star => exact absurd trivial hq
  | plus => exact absurd trivial hq
  | optional => exact absurd trivial hq
  | exactly n => exact absurd trivial hq
  | atLeast n =>
    refine ⟨decimal n ++ [44], by simp [Quantifier.text], ?_⟩
    intro c hc
    rcases mem_append.mp hc with hc | hc
    · exact decimal_literal n c hc
    · rw [mem_singleton.mp hc]
      rfl
  | between n x =>
    refine ⟨decimal n ++ 44 :: decimal x, by simp [Quantifier.text], ?_⟩
    intro c hc
    rcases mem_append.mp hc with hc | hc
    · exact decimal_literal n c hc
    · rcases mem_cons.mp hc with rfl | hc
      · rfl
      · exact decimal_literal x c hc

theorem brace_parsed (s : Parser) (hg : s.groupId.isSome = numbered) {rest : Bytes}
    (hrest : isStart (rest.headD 0) = true) (hs : s.pattern = 123 :: rest) (n : ℕ) :
    Parsed bodies tests numbered s.heap rest (.atom (spelled (oneOf (· = 123))))
      (parseFactor (lineFlags multiline) (n + 2) s) := by
  have hsimple : parseSimple (lineFlags multiline) s = some (singleAtom s (.char 123) rest) := by
    rw [parseSimple, hs, headD_cons, tail_cons, if_neg (by decide), if_neg (by decide),
      if_neg (by decide), if_neg (by decide), if_neg (by decide)]
  have hatom : parseAtom (lineFlags multiline) (n + 1) s = parseSimple (lineFlags multiline) s :=
    parseAtom_simple (by simp [hs]) (by simp [hs])
  have hparsed : Parsed bodies tests numbered s.heap rest (.atom (spelled (oneOf (· = 123))))
      (some (singleAtom s (.char 123) rest)) :=
    single_parsed s hg (.char 123) (.inl trivial) (by simp) rfl (via_char 123) rest
  rw [← hsimple, ← hatom] at hparsed
  obtain ⟨frag, t, hout, ht, hgt, other, hother, hb⟩ := hparsed
  have hnone : applyQuantifier t.heap frag t.pattern = (t.heap, frag, t.pattern) :=
    applyQuantifier_none t.heap frag (by
      rw [ht]
      exact isStart_not_quantifier hrest)
  refine ⟨_, _, parseFactor_some hout, ?_, hgt, other, hother, ?_⟩
  · rw [hnone]
    exact ht
  · rw [hnone]
    exact hb

theorem excess_term {q : Quantifier} (hq : ¬ q.Fits) (nonGreedy : Bool) :
    ∃ u : Term, q.text ++ lazyText nonGreedy = 123 :: u.text ∧ u.Ok ∧
      u.All Quantifier.Braceless ∧ u.Flat ∧ u.SlashOk true := by
  obtain ⟨p, htext, hliteral⟩ := excess_text hq
  refine ⟨Term.ofChars p (closingBrace nonGreedy), ?_, Term.ofChars_ok hliteral ?_,
    Term.ofChars_all ?_, Term.ofChars_flat ?_, Term.ofChars_slashOk ?_⟩
  · rw [Term.ofChars_text, closingBrace_text, htext]
    simp
  · cases nonGreedy
    · rfl
    · exact ⟨rfl, trivial⟩
  · cases nonGreedy
    · trivial
    · exact ⟨trivial, trivial⟩
  · cases nonGreedy <;> trivial
  · cases nonGreedy <;> trivial

/-- Nothing that follows helps a fragment that reads nothing. -/
theorem barren_followed {u : Term} (hok : u.Ok) (hbraceless : u.All Quantifier.Braceless)
    (hflat : u.Flat) (hslash : u.SlashOk true) {n : ℕ} (hn : 6 * u.text.length ≤ n + 3)
    (s : Parser) (hg : s.groupId.isSome = true) (hs : s.pattern = 123 :: u.text)
    (hb : Barren bodies true [] s.heap frag) : ∃ m : Meaning, m.lang = 0 ∧
      Parsed bodies true true [] [] m (termLoop (lineFlags multiline) (n + 6) s frag) := by
  obtain ⟨m, hm, hzero⟩ := hb
  have hstart : isStart ((u.text ++ []).headD 0) = true := text_headD (u.text_start hok)
  rw [← append_nil u.text] at hs
  -- the opening brace
  obtain ⟨brace, t, hbrace, ht, hgt, second, hsecond, hb'⟩ :=
    @brace_parsed bodies true true multiline s hg _ hstart hs (n + 3)
  have hstep : termLoop (lineFlags multiline) (n + 6) s frag =
      termLoop (lineFlags multiline) (n + 5)
        { t with heap := t.heap.setOut1 frag.last (some brace.start) }
        ⟨frag.start, brace.last⟩ := by
    have hhead : s.pattern.headD 0 = 123 := by
      rw [hs]
      rfl
    rw [termLoop, hhead, if_neg (by decide), hbrace]
    rfl
  -- the characters behind it
  obtain ⟨whole, v, hwhole, hv, hgv, third, -, hb''⟩ := (@Term.parsed multiline u true true hok
    (Term.All.mono (fun _ h => h.fits) hbraceless) hflat (fun h => (by cases h)) true hslash []
    (fun _ => rfl) (.inl rfl) (n + 5) (by omega) second
    { t with heap := t.heap.setOut1 frag.last (some brace.start) } hgt ht).2 _ _ _
    (cat_built (hm.rebody hsecond) hb')
  refine ⟨_, ?_, whole, v, hstep.trans hwhole, hv, hgv, third, fun i hi => ?_, hb''⟩
  · rw [u.follow_lang hbraceless, Meaning.cat, hzero, zero_mul, zero_mul]
  · exact absurd hi (Nat.not_lt_zero i)

def countedText (a : Atom) (q : Quantifier) (nonGreedy : Bool) : Bytes :=
  a.text ++ (q.text ++ lazyText nonGreedy)

theorem excess_parsed {a : Atom} {q : Quantifier} (hok : a.Ok) (hfits : a.All Quantifier.Fits)
    (hflat : a.Flat) (hslash : a.SlashOk false) (hq : ¬ q.Fits) (nonGreedy : Bool) :
    ∃ m : Meaning, m.lang = 0 ∧ ∃ bodies : Bodies, Parsed bodies true true [] [] m
      (parseExpr (lineFlags multiline) (6 * (countedText a q nonGreedy).length + 6)
        ⟨[], countedText a q nonGreedy, some 0⟩) := by
  obtain ⟨u, hu, huok, hubraceless, huflat, huslash⟩ := excess_term hq nonGreedy
  have hlen : (countedText a q nonGreedy).length = a.text.length + (u.text.length + 1) := by
    rw [countedText, hu, length_append, length_cons]
  obtain ⟨n, hn⟩ : ∃ n, 6 * (countedText a q nonGreedy).length + 6 = n + 8 :=
    ⟨6 * (countedText a q nonGreedy).length - 2, by omega⟩
  rw [hn]
  obtain ⟨frag, s, hout, hs, hg, first, -, hb⟩ := @Atom.parsed multiline a true true hok hfits
    hflat (fun h => (by cases h)) false hslash (q.text ++ (lazyText nonGreedy ++ []))
    (fun h => absurd h Bool.false_ne_true) (n + 5) (by omega) (fun _ => 0)
    ⟨[], countedText a q nonGreedy, some 0⟩ rfl (by simp [countedText])
  obtain ⟨hbarren, hleft⟩ := excess_built hb hq nonGreedy (show ([] : Bytes).headD 0 ≠ 63 by simp)
  have htail : q.text ++ (lazyText nonGreedy ++ []) = 123 :: u.text := by
    rw [append_nil, hu]
  rw [← hs] at hbarren hleft
  rw [htail] at hs
  obtain ⟨m, hzero, whole, v, hwhole, hv, hgv, third, hthird, hb'⟩ :=
    @barren_followed first multiline _ u huok hubraceless huflat huslash n (by omega)
      { s with
        heap := (applyQuantifier s.heap frag s.pattern).1
        pattern := (applyQuantifier s.heap frag s.pattern).2.2 } hg (hleft.trans hs) hbarren
  refine ⟨m, hzero, first, whole, v, ?_, hv, hgv, third, hthird, hb'⟩
  rw [parseExpr_some ((parseTerm_some (parseFactor_some hout)).trans hwhole),
    exprLoop_end (by rw [hv]; decide)]

theorem excess_compile {a : Atom} {q : Quantifier} (hok : a.Ok) (hfits : a.All Quantifier.Fits)
    (hflat : a.Flat) (hslash : a.SlashOk false) (hq : ¬ q.Fits) (nonGreedy : Bool) :
    ∃ re, compile (countedText a q nonGreedy) (lineFlags multiline) = some (some re) ∧
      ∀ text : Bytes, text.length + 1 < 2 ^ 32 → regexMatch re text = false := by
  obtain ⟨m, hzero, -, frag, s, hout, hs, -, bodies, -, hb⟩ := @excess_parsed multiline a q hok
    hfits hflat hslash hq nonGreedy
  obtain ⟨re, S, hcompile, hflags, hready, hwhole⟩ := compile_built hout hs hb
  refine ⟨re, hcompile, ?_⟩
  intro text hlen
  rw [hzero] at hwhole
  have hmatch := regexMatch_iff hready hwhole (by rw [hflags]; rfl) hlen
  cases hfound : regexMatch re text with
  | false => rfl
  | true =>
    obtain ⟨w, hw, -⟩ := hmatch.mp hfound
    exact absurd hw (Language.notMem_zero w)

end Voxlib.Regex
