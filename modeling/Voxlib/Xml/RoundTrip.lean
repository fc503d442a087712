import Voxlib.Xml.Printing

/-!
# The round trip

An element with 2^31 bytes of markup or more is cut off.
-/

namespace Voxlib.Xml
open CStr Json List Option

def Attr.weight (attr : Attr) : ℕ := attr.name.length + attr.value.length + 3

mutual

def Node.weight : Node → ℕ
  | .mk name attrs content children =>
    name.length + 2 + (attrs.map Attr.weight).sum + content.length + children.weight

def Nodes.weight : Nodes → ℕ
  | .nil => 0
  | .cons child rest => child.weight + rest.weight

end

theorem bind_ok {α β : Type} {x : Except Err α} {f : α → Except Err β} {b : β}
    (h : x >>= f = .ok b) : ∃ a, x = .ok a ∧ f a = .ok b := by
  cases x with
  | error e => cases h
  | ok a => exact ⟨a, rfl, h⟩

variable {cur : Bytes}

theorem fail_ne {α : Type} {message : String} {r : α × Bytes} : fail message cur ≠ .ok r := nofun

theorem skipWhitespace_length (cur : Bytes) : (skipWhitespace cur).length ≤ cur.length :=
  (dropWhile_sublist _).length_le

theorem parseName_length {name rest : Bytes} (h : parseName cur = .ok (name, rest)) :
    name.length + rest.length = cur.length := by
  cases cur with
  | nil => cases h
  | cons ch cur =>
    rw [parseName] at h
    split_ifs at h
    · cases h
      have hsplit := congrArg List.length
        (takeWhile_append_dropWhile (p := isNameChar) (l := cur))
      rw [length_append] at hsplit
      rw [length_cons, length_cons]
      omega
    · exact (fail_ne h).elim

theorem scanValue_length {quote : UInt8} : ∀ {entity : Bool} {value rest : Bytes},
    scanValue quote entity cur = some (value, rest) →
      value.length + 1 + rest.length = cur.length := by
  induction cur with
  | nil =>
    intro entity value rest h
    cases entity <;> cases h
  | cons ch cur ih =>
    intro entity value rest h
    have hmore : ∀ entity', (scanValue quote entity' cur).map (fun r => (ch :: r.1, r.2)) =
        some (value, rest) → value.length + 1 + rest.length = (ch :: cur).length := by
      intro entity' hmap
      obtain ⟨r, hr, heq⟩ := map_eq_some_iff.mp hmap
      cases heq
      have hlen := ih hr
      rw [length_cons, length_cons]
      omega
    cases entity with
    | false =>
      rw [scanValue] at h
      split_ifs at h
      · cases h
        rw [length_nil, length_cons]
        omega
      · exact hmore _ h
    | true => exact hmore _ h

theorem parseAttrValue_length {value rest : Bytes} (h : parseAttrValue cur = .ok (value, rest)) :
    value.length + 2 + rest.length ≤ cur.length := by
  have hskip := skipWhitespace_length cur
  rw [parseAttrValue] at h
  cases hcur : skipWhitespace cur with
  | nil =>
    rw [hcur] at h
    cases h
  | cons quote behind =>
    rw [hcur] at h hskip
    dsimp only at h
    split_ifs at h
    · exact (fail_ne h).elim
    · cases hscan : scanValue quote false behind with
      | none =>
        rw [hscan] at h
        exact (fail_ne h).elim
      | some r =>
        rw [hscan] at h
        cases h
        have hlen := scanValue_length hscan
        rw [length_cons] at hskip
        omega

theorem parseAttr_length {rest : Bytes} {attr : Attr} (h : parseAttr cur = .ok (attr, rest)) :
    attr.weight + rest.length ≤ cur.length := by
  obtain ⟨⟨name, behind⟩, hname, h⟩ := bind_ok h
  have hlen := parseName_length hname
  have hskip := skipWhitespace_length behind
  dsimp only at h
  split_ifs at h with hequals
  · exact (fail_ne h).elim
  · obtain ⟨⟨value, left⟩, hvalue, h⟩ := bind_ok h
    cases h
    have hrest := parseAttrValue_length hvalue
    rw [length_tail] at hrest
    rw [Attr.weight]
    dsimp only
    omega

theorem parseAttrs_length : ∀ (n : ℕ) {cur rest : Bytes} {attrs : List Attr},
    parseAttrs n cur = .ok (attrs, rest) →
      (attrs.map Attr.weight).sum + rest.length ≤ cur.length := by
  intro n
  induction n with
  | zero =>
    intro cur rest attrs h
    cases h
  | succ n ih =>
    intro cur rest attrs h
    have hskip := skipWhitespace_length cur
    rw [parseAttrs] at h
    cases hcur : skipWhitespace cur with
    | nil =>
      rw [hcur] at h
      cases h
      simp
    | cons ch behind =>
      rw [hcur] at h hskip
      dsimp only at h
      split_ifs at h
      · cases h
        simpa using hskip
      · obtain ⟨⟨attr, left⟩, hattr, h⟩ := bind_ok h
        obtain ⟨⟨more, last⟩, hmore, h⟩ := bind_ok h
        cases h
        have hfirst := parseAttr_length hattr
        have hrest := ih hmore
        rw [map_cons, sum_cons]
        dsimp only at hrest ⊢
        omega

theorem parseEndTag_length {name rest : Bytes} (h : parseEndTag name cur = .ok ((), rest)) :
    rest.length ≤ cur.length := by
  have hfirst := skipWhitespace_length cur
  obtain ⟨⟨endName, behind⟩, hname, h⟩ := bind_ok h
  have hlen := parseName_length hname
  have hskip := skipWhitespace_length behind
  dsimp only at h
  split_ifs at h
  · exact (fail_ne h).elim
  · exact (fail_ne h).elim
  · cases h
    rw [length_tail]
    omega

theorem skipProcessingInstruction_length (cur : Bytes) : ∀ rest,
    skipProcessingInstruction cur = some rest → rest.length ≤ cur.length := by
  fun_induction skipProcessingInstruction cur with
  | case1 => nofun
  | case2 => nofun
  | case3 behind =>
    intro rest h
    cases h
    simp only [length_cons]
    omega
  | case4 next behind _ ih =>
    intro rest h
    have hlen := ih rest h
    simp only [length_cons] at hlen ⊢
    omega
  | case5 ch behind _ ih =>
    intro rest h
    have hlen := ih rest h
    rw [length_cons]
    omega

theorem skipClosing_length (closing : UInt8) (seen : ℕ) (cur : Bytes) : ∀ rest,
    skipClosing closing seen cur = some rest → rest.length ≤ cur.length := by
  fun_induction skipClosing closing seen cur with
  | case1 => nofun
  | case2 behind =>
    intro rest h
    cases h
    rw [length_cons]
    omega
  | case3 ch behind _ ih =>
    intro rest h
    have hlen := ih rest h
    rw [length_cons]
    omega
  | case4 seen ch behind _ ih =>
    intro rest h
    have hlen := ih rest h
    rw [length_cons]
    omega

theorem parseTextContent_length (cur : Bytes) :
    (parseTextContent cur).1.length + (parseTextContent cur).2.length ≤ cur.length := by
  have hsplit := congrArg List.length
    (takeWhile_append_dropWhile (p := fun ch : UInt8 => decide (ch ≠ 60)) (l := cur))
  have htrim :=
    (List.rdropWhile_prefix isWhitespace (l := cur.takeWhile fun ch => ch ≠ 60)).length_le
  rw [length_append] at hsplit
  rw [parseTextContent]
  dsimp only
  omega

theorem length_tail_of_head {c : UInt8} (h : cur.head? = some c) :
    cur.tail.length + 1 = cur.length := by
  cases cur with
  | nil => cases h
  | cons d cur => rfl

theorem parse_weight (n : ℕ) :
    (∀ cur t rest, parseNode n cur = .ok (t, rest) → t.weight + rest.length ≤ cur.length) ∧
    (∀ cur t rest, parseElement n cur = .ok (t, rest) → t.weight + rest.length ≤ cur.length) ∧
    ∀ name content cur text ts rest, parseContent n name content cur = .ok ((text, ts), rest) →
      text.length + ts.weight + rest.length ≤ content.length + cur.length := by
  induction n with
  | zero =>
    refine ⟨?_, ?_, ?_⟩
    · intro cur t rest h
      exact (fail_ne h).elim
    · intro cur t rest h
      exact (fail_ne h).elim
    · intro name content cur text ts rest h
      exact (fail_ne h).elim
  | succ n ih =>
    obtain ⟨hnode, helement, hcontent⟩ := ih
    refine ⟨?_, ?_, ?_⟩
    · intro cur t rest h
      have hskip := skipWhitespace_length cur
      -- what stands in front of the element is skipped
      have hmore : ∀ behind : Bytes, behind.length ≤ cur.length → parseNode n behind = .ok (t, rest) →
          t.weight + rest.length ≤ cur.length := by
        intro behind hle hrun
        have hlen := hnode behind t rest hrun
        omega
      have hdrop : ∀ k, ((skipWhitespace cur).drop k).length ≤ cur.length := by
        intro k
        rw [length_drop]
        omega
      rw [parseNode] at h
      split_ifs at h
      · exact (fail_ne h).elim
      · exact (fail_ne h).elim
      · cases hb : skipProcessingInstruction ((skipWhitespace cur).drop 2) with
        | none => exact (fail_ne (by rwa [hb] at h)).elim
        | some behind =>
          rw [hb] at h
          exact hmore behind ((skipProcessingInstruction_length _ behind hb).trans (hdrop 2)) h
      · cases hb : skipComment ((skipWhitespace cur).drop 4) with
        | none => exact (fail_ne (by rwa [hb] at h)).elim
        | some behind =>
          rw [hb] at h
          exact hmore behind ((skipClosing_length _ _ _ behind hb).trans (hdrop 4)) h
      · cases hb : skipCdata ((skipWhitespace cur).drop 9) with
        | none => exact (fail_ne (by rwa [hb] at h)).elim
        | some behind =>
          rw [hb] at h
          exact hmore behind ((skipClosing_length _ _ _ behind hb).trans (hdrop 9)) h
      · have hlen := helement _ t rest h
        omega
    · intro cur t rest h
      cases cur with
      | nil =>
        obtain ⟨_, hname, -⟩ := bind_ok h
        exact (fail_ne hname).elim
      | cons c cur =>
        obtain ⟨⟨name, behind⟩, hname, h⟩ := bind_ok h
        obtain ⟨⟨attrs, left⟩, hattrs, h⟩ := bind_ok h
        have hskip := skipWhitespace_length cur
        have hlen := parseName_length hname
        have htag := parseAttrs_length _ hattrs
        dsimp only [tail_cons] at h hlen htag
        rw [length_cons]
        split_ifs at h with hslash hclose hopen
        · exact (fail_ne h).elim
        · cases h
          have hone := length_tail_of_head hslash
          have htwo := length_tail_of_head (not_not.mp hclose)
          simp only [Node.weight, Nodes.weight, length_nil]
          omega
        · exact (fail_ne h).elim
        · obtain ⟨⟨⟨content, children⟩, last⟩, hinside, h⟩ := bind_ok h
          cases h
          have hone := length_tail_of_head (not_not.mp hopen)
          have hrest := hcontent _ _ _ _ _ _ hinside
          rw [Node.weight]
          rw [length_nil] at hrest
          dsimp only
          omega
    · intro name content cur text ts rest h
      have hskip := skipWhitespace_length cur
      rw [parseContent] at h
      dsimp only at h
      split_ifs at h with hend hblank htag hslash hfirst
      · cases h
        simp [Nodes.weight]
      · exact (fail_ne h).elim
      · obtain ⟨⟨_, behind⟩, hclose, h⟩ := bind_ok h
        cases h
        have hlen := parseEndTag_length hclose
        rw [length_drop] at hlen
        rw [Nodes.weight]
        dsimp only
        omega
      · obtain ⟨⟨child, behind⟩, hchild, h⟩ := bind_ok h
        obtain ⟨⟨⟨text', children⟩, last⟩, hrest, h⟩ := bind_ok h
        cases h
        have hfirst := hnode _ _ _ hchild
        have hmore := hcontent _ _ _ _ _ _ hrest
        rw [Nodes.weight]
        dsimp only at hmore ⊢
        omega
      · have hread := parseTextContent_length (skipWhitespace cur)
        have hmore := hcontent _ _ _ _ _ _ h
        omega
      · have hread := parseTextContent_length (skipWhitespace cur)
        have hmore := hcontent _ _ _ _ _ _ h
        omega

theorem attrs_weight (attrs : List Attr) :
    3 * (attrs.flatMap Attr.render).length ≤ 7 * (attrs.map Attr.weight).sum := by
  induction attrs with
  | nil => exact Nat.le_refl _
  | cons attr attrs ih =>
    rw [flatMap_cons, length_append, map_cons, sum_cons]
    simp only [Attr.render, Attr.weight, length_cons, length_append, length_nil]
    omega

mutual

theorem Node.render_weight : (t : Node) → t.Valid → 3 * t.render.length ≤ 7 * t.weight
  | .mk name attrs content children, h => by
    obtain ⟨hname, -, -, hchildren⟩ := h
    have hrest := Nodes.render_weight children hchildren
    have htag := attrs_weight attrs
    obtain ⟨ch, behind, rfl, -⟩ := hname.split
    rw [Node.render, Node.weight]
    split_ifs with hempty
    · simp only [startTag, length_append, length_cons, length_nil]
      omega
    · simp only [startTag, endTag, length_append, length_cons, length_nil]
      omega

theorem Nodes.render_weight : (ts : Nodes) → ts.Valid → 3 * ts.render.length ≤ 7 * ts.weight
  | .nil, _ => Nat.le_refl _
  | .cons child rest, h => by
    have hfirst := Node.render_weight child h.1
    have hmore := Nodes.render_weight rest h.2
    rw [Nodes.render, Nodes.weight, length_append]
    omega

end

theorem xmlParse_weight {text : Bytes} {t : Node} {used : ℕ}
    (h : xmlParse (text ++ [0]) text.length = .ok (t, used)) : t.weight ≤ text.length := by
  rw [xmlParse, take_left] at h
  split_ifs at h
  dsimp only at h
  cases hrun : parseNode (3 * text.length + 3) text with
  | error e =>
    rw [hrun] at h
    cases h
  | ok r =>
    obtain ⟨root, cur⟩ := r
    rw [hrun] at h
    cases h
    have hlen := (parse_weight _).1 _ _ _ hrun
    omega

/-- When the tree is printed, the printed bytes are parsed to it, all of them. -/
def RoundTrips (t : Node) (size : ℕ) (prolog : Bool) : Prop :=
  let printed := (xmlPrint t size prolog).output
  xmlParse (printed ++ [0]) printed.length = .ok (t, printed.length)

theorem xmlPrint_some {t : Node} {size : ℕ} {prolog : Bool}
    (h : 0 ≤ (xmlPrint t size prolog).ret) : ∃ size' o, printNode size' t = some o ∧
      0 ≤ toInt o.bytes.length ∧ (xmlPrint t size prolog).output =
        (if prolog then prologStr else []) ++ o.bytes.take (toInt o.bytes.length).toNat := by
  have hneg : ¬ (0 : ℤ) ≤ -1 := by decide
  rw [xmlPrint] at h ⊢
  generalize (if prolog then prologStr else []) = front at h ⊢
  dsimp only at h ⊢
  by_cases hsize : size < front.length
  · rw [if_pos hsize] at h
    exact (hneg h).elim
  · rw [if_neg hsize] at h ⊢
    cases hrun : printNode (size - front.length) t with
    | none =>
      rw [hrun] at h
      exact (hneg h).elim
    | some o =>
      rw [hrun] at h
      dsimp only at h ⊢
      by_cases hcount : toInt o.bytes.length < 0
      · rw [if_pos hcount] at h
        exact (hneg h).elim
      · rw [if_neg hcount]
        exact ⟨_, o, hrun, not_lt.mp hcount, rfl⟩

theorem skip_prolog (n : ℕ) (x : Bytes) : parseNode (n + 1) (prologStr ++ x) = parseNode n x := by
  have hbytes : prologStr = [60, 63, 120, 109, 108, 32, 118, 101, 114, 115, 105, 111, 110, 61,
      34, 49, 46, 48, 34, 63, 62] := by decide
  have hbehind : skipProcessingInstruction ((prologStr ++ x).drop 2) = some x := by
    rw [hbytes]
    simp [skipProcessingInstruction]
  have hfront : skipWhitespace (prologStr ++ x) = prologStr ++ x := by
    rw [hbytes]
    exact skip_at (by decide) _
  rw [parseNode, hfront, hbehind]
  simp [hbytes]

theorem xmlParse_printed {t : Node} (h : t.Valid) (prolog : Bool) :
    let printed := (if prolog then prologStr else []) ++ t.render
    xmlParse (printed ++ [0]) printed.length = .ok (t, printed.length) := by
  intro printed
  have hread : parseNode (3 * printed.length + 3) printed = .ok (t, []) := by
    have hplain := parseNode_render t h
    cases prolog with
    | false =>
      have hrun := hplain (3 * t.render.length + 3) [] (by omega)
      rw [append_nil] at hrun
      exact hrun
    | true =>
      have hrun := hplain (3 * printed.length + 2) [] (by
        simp only [printed, if_true, length_append]
        omega)
      rw [append_nil] at hrun
      exact (skip_prolog _ _).trans hrun
  rw [xmlParse]
  simp [hread]

/-- A tree is parsed from its printed bytes exactly when its markup is shorter than 2^31 bytes. -/
theorem xml_round_trip (t : Node) (h : t.Valid) (size : ℕ) (prolog : Bool)
    (hprint : 0 ≤ (xmlPrint t size prolog).ret) :
    RoundTrips t size prolog ↔ t.render.length < 2 ^ 31 := by
  obtain ⟨size', o, hrun, hcount, hout⟩ := xmlPrint_some hprint
  constructor
  · intro htrip
    by_contra hlong
    have hleft := (@printNode_prints False t False.elim).left size' o hrun
    rw [Node.escaped_valid t h] at hleft
    obtain ⟨hsmall, hint⟩ := toInt_left hcount
    have hweight := Node.render_weight t h
    have hread := xmlParse_weight htrip
    have hprolog : (if prolog then prologStr else []).length ≤ 21 := by
      cases prolog <;> decide
    rw [hout, length_append, length_take] at hread
    simp only [Left] at hleft hint
    omega
  · intro hshort
    have hmarkup := Node.escaped_valid t h
    have hbytes := (@printNode_prints True t fun _ => by rwa [hmarkup]).adds size' o hrun
      trivial
    rw [hmarkup] at hbytes
    have hint : toInt o.bytes.length = o.bytes.length := toInt_of_le (by rw [hbytes]; omega)
    rw [hint, Int.toNat_natCast, take_length, hbytes] at hout
    rw [RoundTrips, hout]
    exact xmlParse_printed h prolog

def note : Node :=
  .mk (lit "note") [⟨lit "lang", lit "en"⟩] (lit "hi") (.cons (.mk (lit "br") [] [] .nil) .nil)

theorem note_valid : note.Valid := by
  have hnote : lit "note" = [110, 111, 116, 101] := by decide
  have hlang : lit "lang" = [108, 97, 110, 103] := by decide
  have hbr : lit "br" = [98, 114] := by decide
  have hen : lit "en" = [101, 110] := by decide
  have hhi : lit "hi" = [104, 105] := by decide
  refine ⟨?_, ?_, ⟨?_, ?_⟩, ⟨?_, nofun, ⟨nofun, nofun, nofun⟩, trivial⟩, trivial⟩
  · rw [hnote]
    exact ⟨by decide, by simp [isNameChar, isAlpha]⟩
  · intro attr hattr
    rw [mem_singleton.mp hattr]
    refine ⟨?_, ?_⟩
    · rw [hlang]
      exact ⟨by decide, by simp [isNameChar, isAlpha]⟩
    · rw [hen]
      simp [Plain]
  · rw [hhi]
    simp [Plain]
  · rw [hhi]
    simp [Trimmed, isWhitespace]
  · rw [hbr]
    exact ⟨by decide, by simp [isNameChar, isAlpha]⟩

theorem xml_round_trip_note : RoundTrips note 200 true ∧ RoundTrips note 200 false :=
  ⟨(xml_round_trip note note_valid 200 true (by decide +kernel)).mpr (by decide +kernel),
    (xml_round_trip note note_valid 200 false (by decide +kernel)).mpr (by decide +kernel)⟩

/- A write that adds this text, for so many bytes of room, when there is twice that room. -/
def Runs (write : Out → Option Out) (text : Bytes) (used : ℕ) : Prop :=
  text.length ≤ used ∧ ∀ o, o.bytes.length + 2 * used ≤ o.remaining →
    write o = some ⟨o.bytes ++ text, o.remaining - used⟩

theorem Writes.runs {write : Out → Option Out} {text : Bytes} (h : Writes True write text) :
    Runs write text text.length := by
  refine ⟨Nat.le_refl _, fun o hroom => ?_⟩
  obtain ⟨⟨bytes, remaining⟩, ho⟩ := isSome_iff_exists.mp (h.fits o trivial hroom)
  have htakes : remaining + text.length = o.remaining := h.takes o _ ho
  rw [ho, ← h.adds o _ ho trivial, ← htakes, Nat.add_sub_cancel]

theorem Runs.bind {first second : Out → Option Out} {s t : Bytes} {m n : ℕ}
    (hfirst : Runs first s m) (hsecond : Runs second t n) :
    Runs (fun o => (first o).bind second) (s ++ t) (m + n) := by
  obtain ⟨hs, hfirst⟩ := hfirst
  obtain ⟨ht, hsecond⟩ := hsecond
  refine ⟨by rw [length_append]; omega, ?_⟩
  intro o h
  have hnext := hsecond ⟨o.bytes ++ s, o.remaining - m⟩ (by
    dsimp only
    rw [length_append]
    omega)
  beta_reduce
  rw [hfirst o (by omega), bind_some, hnext, append_assoc, Nat.sub_sub]

def longChild (n : ℕ) : Node := .mk (lit "a") [] (List.replicate n 97) .nil

def longTree (n : ℕ) : Node := .mk (lit "r") [] [] (.cons (longChild n) .nil)

theorem plain_letters (n : ℕ) : Plain (List.replicate n 97) := by
  intro c hc
  rw [eq_of_mem_replicate hc]
  decide

theorem longTree_valid (n : ℕ) : (longTree n).Valid := by
  have hr : lit "r" = [114] := by decide
  have ha : lit "a" = [97] := by decide
  have hend : ∀ c ∈ (List.replicate n (97 : UInt8)), isWhitespace c = false := by
    intro c hc
    rw [eq_of_mem_replicate hc]
    rfl
  refine ⟨?_, nofun, ⟨nofun, nofun, nofun⟩, ⟨?_, nofun, ⟨plain_letters n, ?_, ?_⟩, trivial⟩,
    trivial⟩
  · rw [hr]
    exact ⟨by decide, nofun⟩
  · rw [ha]
    exact ⟨by decide, nofun⟩
  · exact fun c hc => hend c (mem_of_head? hc)
  · exact fun c hc => hend c (mem_of_getLast? hc)

theorem printNode_longChild {n size : ℕ} (hn : 0 < n) (hsize : 2 * (n + 7) ≤ size) :
    printNode size (longChild n) =
      some ⟨lit "<a>" ++ (List.replicate n 97 ++ lit "</a>"), size - (n + 7)⟩ := by
  have hfull : ¬ (Nodes.nil.isEmpty ∧ List.replicate n (97 : UInt8) = []) := by
    rintro ⟨-, h⟩
    have hlen := congrArg List.length h
    rw [length_replicate, length_nil] at hlen
    omega
  have hwrites := ((writes_put (lit "<")).bind <| (writes_put (lit "a")).bind <|
    (writes_put (lit ">")).bind <| (writes_escaped (List.replicate n 97)).bind <|
    (writes_put (lit "<")).bind <| (writes_put (lit "/")).bind <|
    (writes_put (lit "a")).bind (writes_put (lit ">"))).runs
  have hbytes : lit "<" ++ (lit "a" ++ (lit ">" ++ (List.replicate n 97 ++ (lit "<" ++ (lit "/" ++
      (lit "a" ++ lit ">")))))) = lit "<a>" ++ (List.replicate n 97 ++ lit "</a>") := by
    simp [lit]
  have hused : (lit "<a>" ++ (List.replicate n 97 ++ lit "</a>")).length = n + 7 := by
    simp [lit]
  rw [escaped_plain (plain_letters n), hbytes, hused] at hwrites
  have hrun := hwrites.2 ⟨[], size⟩ (by simpa using hsize)
  rw [longChild, printNode]
  simp only [if_neg hfull, printNodes, bind, foldlM_nil, pure, bind_some]
  exact hrun

theorem runs_longChild {n : ℕ} (hn : n = 2 ^ 32) :
    Runs (fun o => printNodes o (.cons (longChild n) .nil)) (lit "<a>aaaa") (n + 7) := by
  refine ⟨by simp [lit], ?_⟩
  intro o h
  have hcount : toInt (n + 7) = 7 := by
    rw [hn]
    decide
  have hlen : (lit "<a>" ++ (List.replicate n 97 ++ lit "</a>")).length = n + 7 := by
    simp [lit]
  have hkept : (lit "<a>" ++ (List.replicate n 97 ++ lit "</a>")).take 7 = lit "<a>aaaa" := by
    have hsplit : List.replicate n (97 : UInt8) = lit "aaaa" ++ List.replicate (n - 4) 97 := by
      have hsum : n = 4 + (n - 4) := by omega
      conv_lhs => rw [hsum, replicate_add]
      rfl
    have hfront : lit "<a>" ++ (List.replicate n 97 ++ lit "</a>") =
        lit "<a>aaaa" ++ (List.replicate (n - 4) 97 ++ lit "</a>") := by
      rw [hsplit]
      simp [lit]
    rw [hfront]
    exact take_left' (by decide)
  have hchild := @printNode_longChild n o.remaining (by omega) (by omega)
  have hseven : ¬ ((7 : ℤ) < 0) := by decide
  beta_reduce
  rw [printNodes, hchild]
  simp only [bind, bind_some, hlen, hcount, hseven, if_false, printNodes]
  rw [show (7 : ℤ).toNat = 7 from rfl, hkept]

theorem xmlPrint_longTree {n : ℕ} (hn : n = 2 ^ 32) :
    xmlPrint (longTree n) (2 ^ 34) false = ⟨14, lit "<r><a>aaaa</r>"⟩ := by
  have hwrites := ((writes_put (lit "<")).bind <| (writes_put (lit "r")).bind <|
    (writes_put (lit ">")).bind (writes_escaped [])).runs.bind <| (runs_longChild hn).bind
    ((writes_put (lit "<")).bind <| (writes_put (lit "/")).bind <|
      (writes_put (lit "r")).bind (writes_put (lit ">"))).runs
  have hbytes : lit "<" ++ (lit "r" ++ (lit ">" ++ escaped [])) ++ (lit "<a>aaaa" ++ (lit "<" ++
      (lit "/" ++ (lit "r" ++ lit ">")))) = lit "<r><a>aaaa</r>" := by decide
  rw [hbytes] at hwrites
  have hrun := hwrites.2 ⟨[], 2 ^ 34⟩ (by simp [lit, escaped]; omega)
  have hnode : ∃ left, printNode (2 ^ 34) (longTree n) = some ⟨lit "<r><a>aaaa</r>", left⟩ := by
    rw [longTree, printNode]
    simp only [bind, foldlM_nil, pure, bind_some]
    exact ⟨_, hrun⟩
  obtain ⟨left, hnode⟩ := hnode
  have hcount : toInt (lit "<r><a>aaaa</r>").length = 14 := by decide
  rw [xmlPrint]
  simp only [Bool.false_eq_true, if_false, length_nil, Nat.not_lt_zero, Nat.sub_zero, hnode,
    hcount]
  rfl

/-- The parent of 2^32 letters keeps seven bytes of their element. -/
theorem long_content_cut : (longTree (2 ^ 32)).Valid ∧
    xmlPrint (longTree (2 ^ 32)) (2 ^ 34) false = ⟨14, lit "<r><a>aaaa</r>"⟩ ∧
    ¬ RoundTrips (longTree (2 ^ 32)) (2 ^ 34) false := by
  refine ⟨longTree_valid _, xmlPrint_longTree rfl, ?_⟩
  have hfails : ∀ r, xmlParse (lit "<r><a>aaaa</r>" ++ [0]) 14 ≠ .ok r := by
    have hcheck : (xmlParse (lit "<r><a>aaaa</r>" ++ [0]) 14).toOption = none := by
      decide +kernel
    intro r hr
    rw [hr] at hcheck
    cases hcheck
  rw [RoundTrips, xmlPrint_longTree rfl]
  exact hfails _

end Voxlib.Xml
