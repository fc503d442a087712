import Voxlib.Xml

/-!
# Markup

The markup of a tree, and how a tree of plain texts is read back from it.
-/

namespace Voxlib.Xml
open CStr Json List

def IsName : Bytes → Prop
  | [] => False
  | ch :: rest => isNameStart ch = true ∧ ∀ d ∈ rest, isNameChar d = true

/- None of < > & " ' and no NUL. -/
def Plain (s : Bytes) : Prop :=
  ∀ c ∈ s, c ≠ 60 ∧ c ≠ 62 ∧ c ≠ 38 ∧ c ≠ 34 ∧ c ≠ 39 ∧ c ≠ 0

instance (s : Bytes) : Decidable (Plain s) := inferInstanceAs (Decidable (∀ c ∈ s, _))

def Trimmed (s : Bytes) : Prop :=
  (∀ c ∈ s.head?, isWhitespace c = false) ∧ ∀ c ∈ s.getLast?, isWhitespace c = false

def Attr.Valid (attr : Attr) : Prop := IsName attr.name ∧ Plain attr.value

mutual

def Node.Valid : Node → Prop
  | .mk name attrs content children =>
    IsName name ∧ (∀ attr ∈ attrs, attr.Valid) ∧ (Plain content ∧ Trimmed content) ∧
      children.Valid

def Nodes.Valid : Nodes → Prop
  | .nil => True
  | .cons child rest => child.Valid ∧ rest.Valid

end

def Attr.render (attr : Attr) : Bytes := 32 :: (attr.name ++ 61 :: 34 :: (attr.value ++ [34]))

def startTag (name : Bytes) (attrs : List Attr) : Bytes :=
  60 :: (name ++ attrs.flatMap Attr.render)

def endTag (name : Bytes) : Bytes := 60 :: 47 :: (name ++ [62])

mutual

def Node.render : Node → Bytes
  | .mk name attrs content children =>
    startTag name attrs ++
      if children.isEmpty ∧ content = [] then [47, 62]
      else 62 :: (content ++ (children.render ++ endTag name))

def Nodes.render : Nodes → Bytes
  | .nil => []
  | .cons child rest => child.render ++ rest.render

end

variable {c : UInt8}

theorem Plain.tail {s : Bytes} (h : Plain (c :: s)) : Plain s :=
  fun d hd => h d (mem_cons_of_mem _ hd)

theorem skip_at (h : isWhitespace c = false) (x : Bytes) :
    skipWhitespace (c :: x) = c :: x := dropWhile_cons_of_neg (by simp [h])

theorem skip_space (x : Bytes) : skipWhitespace (32 :: x) = skipWhitespace x :=
  dropWhile_cons_of_pos rfl

theorem isNameStart_class : ∀ c : UInt8, isNameStart c = true →
    isWhitespace c = false ∧ c ≠ 47 ∧ c ≠ 62 ∧ c ≠ 63 ∧ c ≠ 33 := forall_uint8 (by decide +kernel)

variable {name : Bytes}

theorem IsName.split (h : IsName name) :
    ∃ ch rest, name = ch :: rest ∧ isNameStart ch = true ∧ ∀ d ∈ rest, isNameChar d = true := by
  cases name with
  | nil => exact h.elim
  | cons ch rest => exact ⟨ch, rest, rfl, h.1, h.2⟩

theorem parseName_read {x : Bytes} (h : IsName name) (hx : ∀ c ∈ x.head?, isNameChar c = false) :
    parseName (name ++ x) = .ok (name, x) := by
  obtain ⟨ch, rest, rfl, hstart, hrest⟩ := h.split
  obtain ⟨htake, hdrop⟩ := takeWhile_stop hrest hx
  rw [cons_append, parseName]
  simp only [hstart, not_true_eq_false, if_false, htake, hdrop]

theorem skip_name (h : IsName name) (x : Bytes) : skipWhitespace (name ++ x) = name ++ x := by
  obtain ⟨ch, rest, rfl, hstart, -⟩ := h.split
  exact skip_at (isNameStart_class _ hstart).1 _

theorem scanValue_plain {value : Bytes} (h : Plain value) (x : Bytes) :
    scanValue 34 false (value ++ 34 :: x) = some (value, x) := by
  induction value with
  | nil => rfl
  | cons c value ih =>
    obtain ⟨-, -, hamp, hquot, -⟩ := h c (mem_cons_self ..)
    have hnot : decide (c = 38) = false := decide_eq_false hamp
    rw [cons_append, scanValue, if_neg hquot, hnot, ih h.tail]
    rfl

theorem parseAttr_read {attr : Attr} (h : attr.Valid) (x : Bytes) :
    parseAttr (attr.name ++ 61 :: 34 :: (attr.value ++ 34 :: x)) = .ok (attr, x) := by
  have hname := parseName_read (x := 61 :: 34 :: (attr.value ++ 34 :: x)) h.1
    (by intro c hc; cases hc; decide)
  have hequals : skipWhitespace (61 :: 34 :: (attr.value ++ 34 :: x)) = _ :=
    skip_at (by decide) _
  have hquote : skipWhitespace (34 :: (attr.value ++ 34 :: x)) = _ := skip_at (by decide) _
  have hvalue : parseAttrValue (34 :: (attr.value ++ 34 :: x)) = .ok (attr.value, x) := by
    rw [parseAttrValue, hquote]
    simp [scanValue_plain h.2 x]
  simp only [parseAttr, hname, bind, Except.bind, hequals, List.head?_cons, ne_eq,
    not_true_eq_false, if_false, tail_cons, hvalue]
  rfl

variable {attrs : List Attr}

theorem parseAttrs_read (h : ∀ attr ∈ attrs, attr.Valid) (hc : c = 47 ∨ c = 62) (x : Bytes) :
    ∀ n, attrs.length < n →
    parseAttrs n (attrs.flatMap Attr.render ++ c :: x) = .ok (attrs, c :: x) := by
  have hblank : isWhitespace c = false := by rcases hc with rfl | rfl <;> decide
  induction attrs with
  | nil =>
    intro n hn
    obtain ⟨n, rfl⟩ : ∃ m, n = m + 1 := ⟨n - 1, by omega⟩
    rw [flatMap_nil, nil_append, parseAttrs, skip_at hblank]
    simp only [hc, if_true]
  | cons attr attrs ih =>
    intro n hn
    obtain ⟨n, rfl⟩ : ∃ m, n = m + 1 := ⟨n - 1, by omega⟩
    have hvalid := h attr (mem_cons_self ..)
    have hrest := ih (fun a ha => h a (mem_cons_of_mem _ ha)) n
      (by rw [length_cons] at hn; omega)
    have hbytes : (attr :: attrs).flatMap Attr.render ++ c :: x = 32 :: (attr.name ++
        61 :: 34 :: (attr.value ++ 34 :: (attrs.flatMap Attr.render ++ c :: x))) := by
      simp [Attr.render]
    have hattr := parseAttr_read hvalid (attrs.flatMap Attr.render ++ c :: x)
    obtain ⟨ch, rest, hname, hstart, -⟩ := hvalid.1.split
    obtain ⟨-, hslash, hclose, -⟩ := isNameStart_class _ hstart
    rw [hbytes, parseAttrs, skip_space, skip_name hvalid.1]
    rw [hname, cons_append] at hattr ⊢
    have hgo : ¬ (ch = 47 ∨ ch = 62) := not_or.mpr ⟨hslash, hclose⟩
    simp only [hgo, if_false, bind, Except.bind, hattr, hrest]
    rfl

variable {content : Bytes}

theorem parseTextContent_read (hplain : Plain content) (htrim : Trimmed content) (x : Bytes) :
    parseTextContent (content ++ 60 :: x) = (content, 60 :: x) := by
  obtain ⟨htake, hdrop⟩ := takeWhile_stop (p := fun ch => decide (ch ≠ 60)) (x := 60 :: x)
    (fun c hc => decide_eq_true (hplain c hc).1) (by intro c hc; cases hc; decide)
  have hends : content.rdropWhile isWhitespace = content := by
    rw [rdropWhile_eq_self_iff]
    intro hne
    have hlast := htrim.2 (content.getLast hne) (List.getLast?_eq_some_getLast hne)
    simp [hlast]
  rw [parseTextContent, htake, hdrop, hends]

theorem parseEndTag_read (h : IsName name) (x : Bytes) :
    parseEndTag name (name ++ 62 :: x) = .ok ((), x) := by
  have hname := parseName_read (x := 62 :: x) h (by intro c hc; cases hc; decide)
  have hclose : skipWhitespace (62 :: x) = 62 :: x := skip_at (by decide) _
  simp only [parseEndTag, skip_name h, hname, bind, Except.bind, ne_eq, not_true_eq_false,
    if_false, hclose, List.head?_cons, tail_cons]
  rfl

theorem attrs_length (attrs : List Attr) : attrs.length ≤ (attrs.flatMap Attr.render).length := by
  induction attrs with
  | nil => exact Nat.le_refl _
  | cons attr attrs ih =>
    rw [flatMap_cons, length_append, Attr.render, length_cons, length_cons]
    omega

theorem startTag_read (hname : IsName name) (hattrs : ∀ attr ∈ attrs, attr.Valid)
    (hc : c = 47 ∨ c = 62) (x : Bytes) :
    parseName (skipWhitespace (startTag name attrs ++ c :: x).tail) =
        .ok (name, attrs.flatMap Attr.render ++ c :: x) ∧
      parseAttrs ((attrs.flatMap Attr.render ++ c :: x).length + 1)
        (attrs.flatMap Attr.render ++ c :: x) = .ok (attrs, c :: x) := by
  have hstop : ∀ d ∈ (attrs.flatMap Attr.render ++ c :: x).head?, isNameChar d = false := by
    intro d hd
    cases attrs with
    | nil =>
      cases hd
      rcases hc with rfl | rfl <;> decide
    | cons attr attrs =>
      cases hd
      decide
  have htail : (startTag name attrs ++ c :: x).tail =
      name ++ (attrs.flatMap Attr.render ++ c :: x) := by
    rw [startTag, cons_append, tail_cons, append_assoc]
  refine ⟨?_, parseAttrs_read hattrs hc x _ ?_⟩
  · rw [htail, skip_name hname, parseName_read hname hstop]
  · have hcount := attrs_length attrs
    rw [length_append, length_cons]
    omega

theorem parseElement_empty (hname : IsName name) (hattrs : ∀ attr ∈ attrs, attr.Valid) (n : ℕ)
    (x : Bytes) : parseElement (n + 1) (startTag name attrs ++ 47 :: 62 :: x) =
      .ok (.mk name attrs [] .nil, x) := by
  obtain ⟨hread, hlist⟩ := startTag_read hname hattrs (.inl rfl) (62 :: x)
  simp only [parseElement, hread, bind, Except.bind, hlist, List.head?_cons, if_true,
    tail_cons, ne_eq, not_true_eq_false, if_false]
  rfl

theorem parseElement_pair {children : Nodes} {n : ℕ} {y x : Bytes} (hname : IsName name)
    (hattrs : ∀ attr ∈ attrs, attr.Valid)
    (hcontent : parseContent n name [] y = .ok ((content, children), x)) :
    parseElement (n + 1) (startTag name attrs ++ 62 :: y) =
      .ok (.mk name attrs content children, x) := by
  obtain ⟨hread, hlist⟩ := startTag_read hname hattrs (.inr rfl) y
  have hopen : ¬ (some (62 : UInt8) = some 47) := by decide
  simp only [parseElement, hread, bind, Except.bind, hlist, List.head?_cons, hopen, if_false,
    tail_cons, ne_eq, not_true_eq_false, hcontent]
  rfl

theorem parseNode_start (hname : IsName name) (attrs : List Attr) (n : ℕ) (x : Bytes) :
    parseNode (n + 1) (startTag name attrs ++ x) = parseElement n (startTag name attrs ++ x) := by
  obtain ⟨ch, rest, rfl, hstart, -⟩ := hname.split
  obtain ⟨-, -, -, hask, hbang⟩ := isNameStart_class _ hstart
  have hfront : skipWhitespace (startTag (ch :: rest) attrs ++ x) =
      startTag (ch :: rest) attrs ++ x := skip_at (by decide) _
  have hcomment : lit "!--" = [33, 45, 45] := by decide
  have hcdata : lit "![CDATA[" = [33, 91, 67, 68, 65, 84, 65, 91] := by decide
  rw [parseNode, hfront]
  simp [startTag, hask, hbang, hcomment, hcdata]

theorem render_front {t : Node} (h : t.Valid) : ∃ ch x, t.render = 60 :: ch :: x ∧ ch ≠ 47 := by
  cases t with
  | mk name attrs content children =>
    obtain ⟨ch, rest, hname, hstart, -⟩ := h.1.split
    rw [Node.render, startTag, hname]
    exact ⟨ch, _, rfl, (isNameStart_class _ hstart).2.1⟩

theorem parseContent_end (hname : IsName name) (content : Bytes) (n : ℕ) (x : Bytes) :
    parseContent (n + 1) name content (endTag name ++ x) = .ok ((content, .nil), x) := by
  have hread := parseEndTag_read hname x
  have hfront : skipWhitespace (60 :: 47 :: (name ++ 62 :: x)) = 60 :: 47 :: (name ++ 62 :: x) :=
    skip_at (by decide) _
  have hbytes : endTag name ++ x = 60 :: 47 :: (name ++ 62 :: x) := by simp [endTag]
  rw [hbytes, parseContent]
  simp only [reduceCtorEq, if_false, hfront, List.head?_cons, if_true, drop_succ_cons,
    drop_zero, bind, Except.bind, hread]
  rfl

theorem parseContent_child {child : Node} (hvalid : child.Valid) {text : Bytes} {children : Nodes}
    {n : ℕ} {y x : Bytes} (hchild : parseNode n (child.render ++ y) = .ok (child, y))
    (hrest : parseContent n name content y = .ok ((text, children), x)) :
    parseContent (n + 1) name content (child.render ++ y) =
      .ok ((text, .cons child children), x) := by
  obtain ⟨ch, z, hrender, hslash⟩ := render_front hvalid
  have hfront : skipWhitespace (60 :: ch :: (z ++ y)) = 60 :: ch :: (z ++ y) :=
    skip_at (by decide) _
  have hslash' : ¬ (some ch = some 47) := fun h => hslash (Option.some.inj h)
  rw [hrender] at hchild ⊢
  rw [cons_append, cons_append] at hchild ⊢
  rw [parseContent]
  simp only [reduceCtorEq, if_false, hfront, List.head?_cons, if_true, drop_succ_cons,
    drop_zero, hslash', bind, Except.bind, hchild, hrest]
  rfl

theorem parseContent_text (hplain : Plain content) (htrim : Trimmed content) (hne : content ≠ [])
    (name : Bytes) (n : ℕ) (x : Bytes) :
    parseContent (n + 1) name [] (content ++ 60 :: x) = parseContent n name content (60 :: x) := by
  have hread := parseTextContent_read hplain htrim x
  cases content with
  | nil => exact (hne rfl).elim
  | cons c content =>
    have hfront : skipWhitespace (c :: (content ++ 60 :: x)) = c :: (content ++ 60 :: x) :=
      skip_at (htrim.1 c rfl) _
    have htag : ¬ (some c = some 60) :=
      fun h => (hplain c (mem_cons_self ..)).1 (Option.some.inj h)
    rw [cons_append] at hread ⊢
    rw [parseContent]
    simp only [reduceCtorEq, if_false, hfront, List.head?_cons, htag, hread, if_true]

mutual

theorem parseNode_render : (t : Node) → t.Valid → ∀ n x, 3 * t.render.length ≤ n →
    parseNode n (t.render ++ x) = .ok (t, x)
  | .mk name attrs content children, h, n, x, hn => by
    obtain ⟨hname, hattrs, ⟨hplain, htrim⟩, hchildren⟩ := h
    rw [Node.render] at hn ⊢
    by_cases hempty : children.isEmpty ∧ content = []
    · obtain ⟨hnone, rfl⟩ := hempty
      cases children with
      | cons child rest => cases hnone
      | nil =>
        simp only [Nodes.isEmpty, and_self, if_true, length_append, length_cons] at hn ⊢
        obtain ⟨m, rfl⟩ : ∃ m, n = m + 1 + 1 := ⟨n - 2, by omega⟩
        rw [append_assoc, parseNode_start hname]
        exact parseElement_empty hname hattrs m x
    · rw [if_neg hempty] at hn ⊢
      simp only [length_append, length_cons] at hn
      obtain ⟨m, rfl⟩ : ∃ m, n = m + 1 + 1 + 1 := ⟨n - 3, by omega⟩
      have hinside := parseNodes_render children hchildren name hname content x
      have hcontent : parseContent (m + 1) name [] (content ++ (children.render ++
          endTag name ++ x)) = .ok ((content, children), x) := by
        by_cases hno : content = []
        · rw [hno] at hinside ⊢
          exact hinside (m + 1) (by omega)
        · have hpos : 0 < content.length := length_pos_of_ne_nil hno
          obtain ⟨y, hy⟩ : ∃ y, children.render ++ endTag name ++ x = 60 :: y := by
            cases children with
            | nil => exact ⟨_, rfl⟩
            | cons child rest =>
              obtain ⟨ch, z, hrender, -⟩ := render_front hchildren.1
              rw [Nodes.render, hrender]
              exact ⟨_, rfl⟩
          rw [hy] at hinside ⊢
          rw [parseContent_text hplain htrim hno]
          exact hinside m (by omega)
      have hpair := parseElement_pair hname hattrs hcontent
      rw [append_assoc, parseNode_start hname]
      simpa using hpair

theorem parseNodes_render : (ts : Nodes) → ts.Valid → ∀ name, IsName name → ∀ content x n,
    3 * ts.render.length + 1 ≤ n →
    parseContent n name content (ts.render ++ endTag name ++ x) = .ok ((content, ts), x)
  | .nil, _, name, hname, content, x, n, hn => by
    obtain ⟨m, rfl⟩ : ∃ m, n = m + 1 := ⟨n - 1, by omega⟩
    exact parseContent_end hname content m x
  | .cons child rest, h, name, hname, content, x, n, hn => by
    rw [Nodes.render, length_append] at hn
    obtain ⟨ch, z, hrender, -⟩ := render_front h.1
    have hlen : 0 < child.render.length := by rw [hrender]; exact Nat.succ_pos _
    obtain ⟨m, rfl⟩ : ∃ m, n = m + 1 := ⟨n - 1, by omega⟩
    have hchild := parseNode_render child h.1 m (rest.render ++ endTag name ++ x) (by omega)
    have hrest := parseNodes_render rest h.2 name hname content x m (by omega)
    rw [Nodes.render, append_assoc, append_assoc]
    rw [append_assoc] at hchild hrest
    exact parseContent_child h.1 hchild hrest

end

end Voxlib.Xml
