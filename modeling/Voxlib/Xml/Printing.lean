import Voxlib.Xml.Markup

/-!
# Printing into a buffer

Every check compares what is written with what is left when both have moved. Counts are returned
as an `int`.
-/

namespace Voxlib.Xml
open CStr Json List Option

def escaped (s : Bytes) : Bytes := s.flatMap escapeByte

def Attr.escaped (attr : Attr) : Attr := ⟨attr.name, Xml.escaped attr.value⟩

mutual

/-- The tree with its values and contents as they are printed. -/
def Node.escaped : Node → Node
  | .mk name attrs content children =>
    .mk name (attrs.map Attr.escaped) (Xml.escaped content) children.escaped

def Nodes.escaped : Nodes → Nodes
  | .nil => .nil
  | .cons child rest => .cons child.escaped rest.escaped

end

theorem escaped_plain {s : Bytes} (h : Plain s) : escaped s = s := by
  induction s with
  | nil => rfl
  | cons c s ih =>
    obtain ⟨hlt, hgt, hamp, hquot, hapos, -⟩ := h c (mem_cons_self ..)
    rw [escaped, flatMap_cons, escapeByte, if_neg hlt, if_neg hgt, if_neg hamp,
      if_neg hquot, if_neg hapos, ← escaped, ih h.tail, singleton_append]

mutual

theorem Node.escaped_valid : (t : Node) → t.Valid → t.escaped = t
  | .mk name attrs content children, h => by
    obtain ⟨-, hattrs, ⟨hplain, -⟩, hchildren⟩ := h
    have hmap : attrs.map Attr.escaped = attrs := by
      refine (map_congr_left fun attr hattr => ?_).trans (map_id attrs)
      rw [Attr.escaped, escaped_plain (hattrs attr hattr).2, id]
    rw [Node.escaped, hmap, escaped_plain hplain, Nodes.escaped_valid children hchildren]

theorem Nodes.escaped_valid : (ts : Nodes) → ts.Valid → ts.escaped = ts
  | .nil, _ => rfl
  | .cons child rest, h => by
    rw [Nodes.escaped, Node.escaped_valid child h.1, Nodes.escaped_valid rest h.2]

end

theorem escaped_empty (content : Bytes) (children : Nodes) :
    (children.escaped.isEmpty ∧ escaped content = []) ↔ children.isEmpty ∧ content = [] := by
  have hchildren : children.escaped.isEmpty = children.isEmpty := by cases children <;> rfl
  have hcontent : escaped content = [] ↔ content = [] := by
    cases content with
    | nil => exact Iff.rfl
    | cons c s =>
      simp only [escaped, flatMap_cons, append_eq_nil_iff, reduceCtorEq, iff_false]
      rintro ⟨hnil, -⟩
      rw [escapeByte] at hnil
      split_ifs at hnil <;> revert hnil <;> decide +revert
  rw [hchildren, hcontent]

theorem escapeXml_some {dstSize written : ℕ} {s x : Bytes}
    (h : escapeXml dstSize written s = some x) : x = escaped s := by
  induction s generalizing written x with
  | nil =>
    cases h
    rfl
  | cons c s ih =>
    rw [escapeXml] at h
    split_ifs at h
    obtain ⟨y, hy, rfl⟩ := map_eq_some_iff.mp h
    rw [ih hy, escaped, escaped, flatMap_cons]

theorem escapeXml_bound {dstSize written : ℕ} {s x : Bytes}
    (h : escapeXml dstSize written s = some x) (hle : written ≤ dstSize) :
    written + x.length ≤ dstSize := by
  induction s generalizing written x with
  | nil =>
    cases h
    exact hle
  | cons c s ih =>
    rw [escapeXml] at h
    split_ifs at h with hfits
    obtain ⟨y, hy, rfl⟩ := map_eq_some_iff.mp h
    have hrest := ih hy hfits
    rw [length_append]
    omega

theorem escapeXml_fits {dstSize written : ℕ} {s : Bytes}
    (h : written + (escaped s).length ≤ dstSize) :
    escapeXml dstSize written s = some (escaped s) := by
  induction s generalizing written with
  | nil => rfl
  | cons c s ih =>
    rw [escaped, flatMap_cons, ← escaped, length_append] at h
    rw [escapeXml, if_pos (by omega), ih (by omega), escaped, escaped, flatMap_cons]
    rfl

/- So many bytes are left of so many: all of them, or 2^32 and more are missing. -/
def Left (left all : ℕ) : Prop := left = all ∨ left + 2 ^ 32 ≤ all

theorem toInt_left {j : ℕ} (h : 0 ≤ toInt j) :
    (toInt j).toNat < 2 ^ 31 ∧ Left (toInt j).toNat j := by
  rw [toInt] at h ⊢
  rw [Left]
  split_ifs at h ⊢ <;> omega

/- A write that adds this text, or some of it when it is not `short`, and takes all of it from what
   remains; it goes well when it leaves no less than is written. -/
structure Writes (short : Prop) (write : Out → Option Out) (text : Bytes) : Prop where
  adds : ∀ o o', write o = some o' → short → o'.bytes = o.bytes ++ text
  left : ∀ o o', write o = some o' → Left o'.bytes.length (o.bytes.length + text.length)
  takes : ∀ o o', write o = some o' → o'.remaining + text.length = o.remaining
  fits : ∀ o, short → o.bytes.length + 2 * text.length ≤ o.remaining → (write o).isSome

section Writes
variable {short : Prop}

theorem writes_whole {write : Out → Option Out} {text : Bytes}
    (hadds : ∀ o o', write o = some o' → o'.bytes = o.bytes ++ text ∧
      o'.remaining + text.length = o.remaining)
    (hfits : ∀ o, o.bytes.length + 2 * text.length ≤ o.remaining → (write o).isSome) :
    Writes short write text where
  adds o o' h _ := (hadds o o' h).1
  left o o' h := .inl (by rw [(hadds o o' h).1, length_append])
  takes o o' h := (hadds o o' h).2
  fits o _ h := hfits o h

theorem writes_put (text : Bytes) : Writes short (fun o => o.put text) text := by
  refine writes_whole (fun o o' h => ?_) fun o h => ?_
  · beta_reduce at h
    rw [Out.put] at h
    split_ifs at h
    cases h
    exact ⟨rfl, by dsimp only; omega⟩
  · rw [Out.put, if_pos (by omega)]
    rfl

theorem writes_escaped (text : Bytes) :
    Writes short (fun o => o.putEscaped text) (escaped text) := by
  refine writes_whole (fun o o' h => ?_) fun o h => ?_
  · obtain ⟨x, hx, rfl⟩ := map_eq_some_iff.mp h
    have hbound := escapeXml_bound hx (Nat.zero_le _)
    obtain rfl := escapeXml_some hx
    exact ⟨rfl, by dsimp only; omega⟩
  · rw [Out.putEscaped, escapeXml_fits (by omega)]
    rfl

theorem Writes.bind {first second : Out → Option Out} {s t : Bytes}
    (hfirst : Writes short first s) (hsecond : Writes short second t) :
    Writes short (fun o => (first o).bind second) (s ++ t) where
  adds o o' h hshort := by
    obtain ⟨mid, hmid, hend⟩ := bind_eq_some_iff.mp h
    rw [hsecond.adds mid o' hend hshort, hfirst.adds o mid hmid hshort, append_assoc]
  left o o' h := by
    obtain ⟨mid, hmid, hend⟩ := bind_eq_some_iff.mp h
    have hone := hfirst.left o mid hmid
    have htwo := hsecond.left mid o' hend
    rw [length_append]
    simp only [Left] at hone htwo ⊢
    omega
  takes o o' h := by
    obtain ⟨mid, hmid, hend⟩ := bind_eq_some_iff.mp h
    have hone := hfirst.takes o mid hmid
    have htwo := hsecond.takes mid o' hend
    rw [length_append]
    omega
  fits o hshort h := by
    rw [length_append] at h
    obtain ⟨mid, hmid⟩ := isSome_iff_exists.mp (hfirst.fits o hshort (by omega))
    have hone := hfirst.takes o mid hmid
    have hnext := hsecond.fits mid hshort (by
      rw [hfirst.adds o mid hmid hshort, length_append]
      omega)
    rwa [hmid]

theorem writes_attr (attr : Attr) :
    Writes short (fun o => printAttr o attr) attr.escaped.render := by
  have hwrites := (@writes_put short (lit " ")).bind <| (writes_put attr.name).bind <|
    (writes_put (lit "=")).bind <| (writes_put (lit "\"")).bind <|
    (writes_escaped attr.value).bind (writes_put (lit "\""))
  rw [show lit " " = [32] by decide, show lit "=" = [61] by decide,
    show lit "\"" = [34] by decide] at hwrites
  exact hwrites

theorem writes_attrs (attrs : List Attr) : Writes short (fun o => attrs.foldlM printAttr o)
    ((attrs.map Attr.escaped).flatMap Attr.render) := by
  induction attrs with
  | nil =>
    refine writes_whole (fun o o' h => ?_) fun _ _ => rfl
    cases h
    exact ⟨(append_nil _).symm, rfl⟩
  | cons attr attrs ih => exact (writes_attr attr).bind ih

/- The whole of a short element is printed exactly when the last byte fits: twice what is in front
   of it, and the byte. -/
structure Prints (short : Prop) (t : Node) : Prop where
  adds : ∀ size o, printNode size t = some o → short → o.bytes = t.escaped.render
  left : ∀ size o, printNode size t = some o → Left o.bytes.length t.escaped.render.length
  takes : ∀ size o, printNode size t = some o → o.remaining + t.escaped.render.length = size
  fits : ∀ size, short → ((printNode size t).isSome ↔ 2 * t.escaped.render.length ≤ size + 1)

theorem Writes.prints {t : Node} {before : Out → Option Out} {pre : Bytes}
    (h : Writes short before pre) (hrender : t.escaped.render = pre ++ [62])
    (hrun : ∀ size, printNode size t = (before ⟨[], size⟩).bind (·.put (lit ">"))) :
    Prints short t := by
  have hclose : lit ">" = [62] := by decide
  rw [hclose] at hrun
  have hall := h.bind (writes_put [62])
  refine ⟨fun size o ho hshort => ?_, fun size o ho => ?_, fun size o ho => ?_,
    fun size hshort => ?_⟩
  · rw [hrun] at ho
    rw [hrender]
    exact hall.adds ⟨[], size⟩ o ho hshort
  · rw [hrun] at ho
    have hleft := hall.left ⟨[], size⟩ o ho
    rwa [length_nil, Nat.zero_add, ← hrender] at hleft
  · rw [hrun] at ho
    rw [hrender]
    exact hall.takes ⟨[], size⟩ o ho
  · rw [hrun, hrender, length_append, length_singleton]
    constructor
    · intro hsome
      obtain ⟨o, ho⟩ := isSome_iff_exists.mp hsome
      obtain ⟨mid, hmid, hput⟩ := bind_eq_some_iff.mp ho
      have hbytes := h.adds _ mid hmid hshort
      have htakes : mid.remaining + pre.length = size := h.takes _ mid hmid
      rw [Out.put] at hput
      split_ifs at hput with hfits
      rw [hbytes, length_singleton, nil_append] at hfits
      omega
    · intro hlen
      obtain ⟨mid, hmid⟩ := isSome_iff_exists.mp
        (h.fits ⟨[], size⟩ hshort (by dsimp only [length_nil]; omega))
      have hbytes := h.adds _ mid hmid hshort
      have htakes : mid.remaining + pre.length = size := h.takes _ mid hmid
      rw [hmid, bind_some, Out.put, if_pos]
      · rfl
      · rw [hbytes, length_singleton, nil_append]
        omega

/- What the parent goes on with behind the child that has written `c`. -/
def Out.behind (o c : Out) : Option Out :=
  if toInt c.bytes.length < 0 then none
  else some ⟨o.bytes ++ c.bytes.take (toInt c.bytes.length).toNat, c.remaining⟩

theorem Prints.writes {child : Node} (h : Prints short child)
    (hlen : short → child.escaped.render.length < 2 ^ 31) :
    Writes short (fun o => (printNode o.remaining child).bind o.behind) child.escaped.render := by
  have hsome (o o' : Out) (hrun : (printNode o.remaining child).bind o.behind = some o') :
      ∃ c, printNode o.remaining child = some c ∧ 0 ≤ toInt c.bytes.length ∧
        o' = ⟨o.bytes ++ c.bytes.take (toInt c.bytes.length).toNat, c.remaining⟩ := by
    obtain ⟨c, hc, hend⟩ := bind_eq_some_iff.mp hrun
    rw [Out.behind] at hend
    split_ifs at hend with hneg
    cases hend
    exact ⟨c, hc, not_lt.mp hneg, rfl⟩
  have hint (hshort : short) : toInt child.escaped.render.length =
      child.escaped.render.length := by
    have hall := hlen hshort
    exact toInt_of_le (by omega)
  refine ⟨fun o o' hrun hshort => ?_, fun o o' hrun => ?_, fun o o' hrun => ?_,
    fun o hshort hroom => ?_⟩
  · obtain ⟨c, hc, -, rfl⟩ := hsome o o' hrun
    rw [h.adds _ c hc hshort, hint hshort, Int.toNat_natCast, take_length]
  · obtain ⟨c, hc, hcount, rfl⟩ := hsome o o' hrun
    have hall := h.left _ c hc
    have hcut := (toInt_left hcount).2
    simp only [Left, length_append, length_take] at hall hcut ⊢
    omega
  · obtain ⟨c, hc, -, rfl⟩ := hsome o o' hrun
    exact h.takes _ c hc
  · obtain ⟨c, hc⟩ := isSome_iff_exists.mp ((h.fits o.remaining hshort).mpr (by omega))
    rw [hc, bind_some, Out.behind, h.adds _ c hc hshort, hint hshort, if_neg (by omega)]
    rfl

mutual

theorem printNode_prints : (t : Node) → (short → t.escaped.render.length < 2 ^ 31) → Prints short t
  | .mk name attrs content children, hlen => by
    have hopen := (@writes_put short (lit "<")).bind ((writes_put name).bind
      (writes_attrs attrs))
    rw [show lit "<" = [60] by decide] at hopen
    have hempty := escaped_empty content children
    rw [Node.escaped, Node.render] at hlen
    by_cases hnone : children.isEmpty ∧ content = []
    · have hwrites := hopen.bind (writes_put (lit "/"))
      refine hwrites.prints ?_ fun size => ?_
      · rw [Node.escaped, Node.render, if_pos (hempty.mpr hnone), show lit "/" = [47] by decide]
        simp [startTag]
      · rw [printNode]
        simp [hnone, bind_assoc, show lit "<" = [60] by decide]
    · rw [if_neg (mt hempty.mp hnone)] at hlen
      have hinside := printNodes_writes children fun hshort => by
        have hall := hlen hshort
        simp only [length_append, length_cons] at hall
        omega
      have hwrites := hopen.bind ((writes_put (lit ">")).bind ((writes_escaped content).bind
        (hinside.bind ((writes_put (lit "<")).bind ((writes_put (lit "/")).bind
          (writes_put name))))))
      refine hwrites.prints ?_ fun size => ?_
      · rw [Node.escaped, Node.render, if_neg (mt hempty.mp hnone),
          show lit "<" = [60] by decide, show lit ">" = [62] by decide,
          show lit "/" = [47] by decide]
        simp [startTag, endTag]
      · rw [printNode]
        simp [hnone, bind_assoc, show lit "<" = [60] by decide]

theorem printNodes_writes : (ts : Nodes) → (short → ts.escaped.render.length < 2 ^ 31) →
    Writes short (fun o => printNodes o ts) ts.escaped.render
  | .nil, _ => writes_whole
    (fun o o' h => by
      cases h
      exact ⟨(append_nil _).symm, rfl⟩)
    fun _ _ => rfl
  | .cons child rest, hlen => by
    rw [Nodes.escaped, Nodes.render, length_append] at hlen
    have hchild := printNode_prints child fun hshort => by
      have hall := hlen hshort
      omega
    have hrest := printNodes_writes rest fun hshort => by
      have hall := hlen hshort
      omega
    have hloop : (fun o => printNodes o (.cons child rest)) = fun o =>
        ((printNode o.remaining child).bind o.behind).bind fun o => printNodes o rest := by
      funext o
      rw [printNodes, bind_assoc]
      refine congrArg _ (funext fun c => ?_)
      dsimp only [Out.behind]
      split_ifs <;> rfl
    rw [Nodes.escaped, Nodes.render, hloop]
    exact (hchild.writes fun hshort => by have hall := hlen hshort; omega).bind hrest

end

end Writes

/- The printer with the indices it writes: every one is below `high`, also when it gives up. -/
structure Run where
  high : ℕ
  out : Option Out

def Run.andThen (r : Run) (f : Out → Run) : Run :=
  match r.out with
  | none => r
  | some o => ⟨max r.high (f o).high, (f o).out⟩

def Out.putRun (o : Out) (text : Bytes) : Run where
  high := if o.bytes.length + text.length ≤ o.remaining then o.bytes.length + text.length else 0
  out := o.put text

/- How far escape_xml gets. -/
def escapeHigh (dstSize : ℕ) : ℕ → Bytes → ℕ
  | written, [] => written
  | written, c :: src =>
    if written + (escapeByte c).length ≤ dstSize then
      escapeHigh dstSize (written + (escapeByte c).length) src
    else written

def Out.putEscapedRun (o : Out) (text : Bytes) : Run where
  high := o.bytes.length + escapeHigh o.remaining 0 text
  out := o.putEscaped text

def printAttrRun (o : Out) (attr : Attr) : Run :=
  (o.putRun (lit " ")).andThen fun o => (o.putRun attr.name).andThen fun o =>
  (o.putRun (lit "=")).andThen fun o => (o.putRun (lit "\"")).andThen fun o =>
  (o.putEscapedRun attr.value).andThen fun o => o.putRun (lit "\"")

def printAttrsRun (o : Out) : List Attr → Run
  | [] => ⟨0, some o⟩
  | attr :: attrs => (printAttrRun o attr).andThen fun o => printAttrsRun o attrs

mutual

def printNodeRun (size : ℕ) : Node → Run
  | .mk name attrs content children =>
    (Out.putRun ⟨[], size⟩ (lit "<")).andThen fun o => (o.putRun name).andThen fun o =>
    (printAttrsRun o attrs).andThen fun o =>
    if children.isEmpty ∧ content = [] then
      (o.putRun (lit "/")).andThen fun o => o.putRun (lit ">")
    else
      (o.putRun (lit ">")).andThen fun o => (o.putEscapedRun content).andThen fun o =>
      (printNodesRun o children).andThen fun o => (o.putRun (lit "<")).andThen fun o =>
      (o.putRun (lit "/")).andThen fun o => (o.putRun name).andThen fun o => o.putRun (lit ">")

def printNodesRun (o : Out) : Nodes → Run
  | .nil => ⟨0, some o⟩
  | .cons child rest =>
    -- the child's indices start behind what its parent has written
    let c := printNodeRun o.remaining child
    Run.andThen ⟨o.bytes.length + c.high, c.out.bind o.behind⟩ fun o => printNodesRun o rest

end

theorem Run.andThen_out (r : Run) (f : Out → Run) :
    (r.andThen f).out = r.out.bind fun o => (f o).out := by
  rw [Run.andThen]
  cases h : r.out with
  | none => exact h
  | some o => rfl

theorem printAttrsRun_out (o : Out) (attrs : List Attr) :
    (printAttrsRun o attrs).out = attrs.foldlM printAttr o := by
  induction attrs generalizing o with
  | nil => rfl
  | cons attr attrs ih =>
    have hattr : (printAttrRun o attr).out = printAttr o attr := by
      simp [printAttrRun, Run.andThen_out, printAttr, Out.putRun, Out.putEscapedRun]
    simp only [printAttrsRun, Run.andThen_out, ih, hattr]
    rfl

mutual

theorem printNodeRun_out (size : ℕ) : (t : Node) → (printNodeRun size t).out = printNode size t
  | .mk name attrs content children => by
    rw [printNodeRun, printNode]
    by_cases hnone : children.isEmpty ∧ content = [] <;>
      simp [hnone, Run.andThen_out, Out.putRun, Out.putEscapedRun, printAttrsRun_out,
        fun o => printNodesRun_out o children]

theorem printNodesRun_out (o : Out) : (ts : Nodes) → (printNodesRun o ts).out = printNodes o ts
  | .nil => rfl
  | .cons child rest => by
    rw [printNodesRun, printNodes, Run.andThen_out, printNodeRun_out o.remaining child]
    dsimp only
    rw [bind_assoc]
    refine congrArg _ (funext fun c => ?_)
    rw [Out.behind]
    split_ifs
    · rfl
    · exact printNodesRun_out _ rest

end

/- A write from `o` on stays within the buffer, and so does what it leaves. -/
def Within (size : ℕ) (r : Run) : Prop :=
  r.high ≤ size ∧ ∀ o, r.out = some o → o.bytes.length + o.remaining ≤ size

variable {size : ℕ}

theorem Within.andThen {r : Run} {f : Out → Run} (h : Within size r)
    (hf : ∀ o : Out, o.bytes.length + o.remaining ≤ size → Within size (f o)) :
    Within size (r.andThen f) := by
  rw [Run.andThen]
  cases hout : r.out with
  | none => exact h
  | some o =>
    have hnext := hf o (h.2 o hout)
    exact ⟨max_le h.1 hnext.1, hnext.2⟩

theorem within_put (text : Bytes) {o : Out} (h : o.bytes.length + o.remaining ≤ size) :
    Within size (o.putRun text) := by
  refine ⟨?_, fun o' ho => ?_⟩
  · rw [Out.putRun]
    dsimp only
    split_ifs <;> omega
  · rw [Out.putRun, Out.put] at ho
    dsimp only at ho
    split_ifs at ho
    cases ho
    simp only [length_append]
    omega

theorem escapeHigh_le {dstSize written : ℕ} (s : Bytes) (h : written ≤ dstSize) :
    escapeHigh dstSize written s ≤ dstSize := by
  induction s generalizing written with
  | nil => exact h
  | cons c s ih =>
    rw [escapeHigh]
    split_ifs with hfits
    · exact ih hfits
    · exact h

theorem within_escaped (text : Bytes) {o : Out} (h : o.bytes.length + o.remaining ≤ size) :
    Within size (o.putEscapedRun text) := by
  have hhigh := escapeHigh_le text (Nat.zero_le o.remaining)
  refine ⟨?_, fun o' ho => ?_⟩
  · rw [Out.putEscapedRun]
    dsimp only
    omega
  · obtain ⟨x, hx, rfl⟩ := map_eq_some_iff.mp ho
    have hbound := escapeXml_bound hx (Nat.zero_le _)
    simp only [length_append]
    omega

theorem within_attrs (attrs : List Attr) {o : Out} (h : o.bytes.length + o.remaining ≤ size) :
    Within size (printAttrsRun o attrs) := by
  induction attrs generalizing o with
  | nil =>
    refine ⟨Nat.zero_le _, fun o' ho => ?_⟩
    cases ho
    exact h
  | cons attr attrs ih =>
    refine Within.andThen ?_ fun o h => ih h
    exact (within_put _ h).andThen fun o h => (within_put _ h).andThen fun o h =>
      (within_put _ h).andThen fun o h => (within_put _ h).andThen fun o h =>
      (within_escaped _ h).andThen fun o h => within_put _ h

mutual

theorem within_node (size : ℕ) : (t : Node) → Within size (printNodeRun size t)
  | .mk name attrs content children => by
    have hstart : (⟨[], size⟩ : Out).bytes.length + size ≤ size := (Nat.zero_add size).le
    rw [printNodeRun]
    refine (within_put _ hstart).andThen fun o h => (within_put _ h).andThen fun o h =>
      (within_attrs attrs h).andThen fun o h => ?_
    split_ifs
    · exact (within_put _ h).andThen fun o h => within_put _ h
    · exact (within_put _ h).andThen fun o h => (within_escaped _ h).andThen fun o h =>
        (within_nodes children size o h).andThen fun o h => (within_put _ h).andThen fun o h =>
        (within_put _ h).andThen fun o h => (within_put _ h).andThen fun o h => within_put _ h

theorem within_nodes : (ts : Nodes) → ∀ size (o : Out), o.bytes.length + o.remaining ≤ size →
    Within size (printNodesRun o ts)
  | .nil, size, o, h => by
    refine ⟨Nat.zero_le _, fun o' ho => ?_⟩
    cases ho
    exact h
  | .cons child rest, size, o, h => by
    obtain ⟨hhigh, hout⟩ := within_node o.remaining child
    rw [printNodesRun]
    refine Within.andThen ⟨?_, fun o' ho => ?_⟩ fun o h => within_nodes rest size o h
    · dsimp only
      omega
    · obtain ⟨c, hc, hend⟩ := bind_eq_some_iff.mp ho
      have hroom := hout c hc
      rw [Out.behind] at hend
      split_ifs at hend with hneg
      cases hend
      have hcut := (toInt_left (not_lt.mp hneg)).2
      simp only [Left, length_append, length_take] at hcut ⊢
      omega

end

/- One past the highest index of the buffer that vox_xml_print writes. -/
def xmlPrintHigh (node : Node) (size : ℕ) (prolog : Bool) : ℕ :=
  let prologText := if prolog then prologStr else []
  if size < prologText.length then 0
  else prologText.length + (printNodeRun (size - prologText.length) node).high

def output (node : Node) (prolog : Bool) : Bytes :=
  (if prolog then prologStr else []) ++ node.escaped.render

/-- Printing succeeds exactly when there is room, gives the output and its length, and stays in the
buffer. -/
def PrintsRight (node : Node) (size : ℕ) (prolog : Bool) : Prop :=
  (0 ≤ (xmlPrint node size prolog).ret ↔ (output node prolog).length ≤ size) ∧
  (0 ≤ (xmlPrint node size prolog).ret →
    xmlPrint node size prolog = ⟨(output node prolog).length, output node prolog⟩) ∧
  xmlPrintHigh node size prolog ≤ size

theorem xmlPrintHigh_le (node : Node) (size : ℕ) (prolog : Bool) :
    xmlPrintHigh node size prolog ≤ size := by
  rw [xmlPrintHigh]
  generalize (if prolog then prologStr else []) = front
  split_ifs
  · exact Nat.zero_le _
  · have hnode := (within_node (size - front.length) node).1
    omega

/-- It does when the output does not fit anyway, or there is room for the markup twice, up to one
byte, and the output is shorter than 2^31 bytes. -/
theorem xmlPrint_right_iff (t : Node) (size : ℕ) (prolog : Bool) : PrintsRight t size prolog ↔
    size < (output t prolog).length ∨
      (if prolog then prologStr else []).length + 2 * t.escaped.render.length ≤ size + 1 ∧
        (output t prolog).length < 2 ^ 31 := by
  have hhigh := xmlPrintHigh_le t size prolog
  have hneg : ¬ (0 : ℤ) ≤ -1 := by decide
  obtain ⟨hadds, -, htakes, hfits⟩ :=
    @printNode_prints (t.escaped.render.length < 2 ^ 31) t id
  rw [PrintsRight, xmlPrint]
  simp only [output, length_append, hhigh, and_true]
  generalize (if prolog then prologStr else []) = front
  by_cases hfront : size < front.length
  · simp only [if_pos hfront, hneg, false_iff, false_imp_iff, and_true]
    omega
  rw [if_neg hfront]
  cases hrun : printNode (size - front.length) t with
  | none =>
    simp only [hneg, false_iff, false_imp_iff, and_true]
    have hshort (h : t.escaped.render.length < 2 ^ 31) := mt (hfits (size - front.length) h).mpr
    rw [hrun] at hshort
    have hlong := fun h => hshort h (by simp)
    omega
  | some o =>
    have hroom := htakes _ o hrun
    dsimp only
    by_cases hshort : front.length + t.escaped.render.length < 2 ^ 31
    · have hbytes := hadds _ o hrun (by omega)
      have hint : toInt t.escaped.render.length = t.escaped.render.length :=
        toInt_of_le (by omega)
      have hall : toInt (front.length + t.escaped.render.length) =
          (front.length + t.escaped.render.length : ℕ) := toInt_of_le (by omega)
      have hsome := (hfits (size - front.length) (by omega)).mp (by rw [hrun]; rfl)
      rw [hbytes, hint, if_neg (by omega), Int.toNat_natCast, take_length,
        hall]
      simp only [implies_true, and_true]
      omega
    · -- an `int` cannot be the length
      have hcount (j : ℕ) (hj : 0 ≤ toInt j) : toInt j < 2 ^ 31 := by
        have hbound := (toInt_left hj).1
        omega
      constructor
      · rintro ⟨hiff, hlength⟩
        have hret := hiff.mpr (by omega)
        have hequal := congrArg Written.ret (hlength hret)
        split_ifs at hret hequal
        · exact absurd hret hneg
        · have hbound := hcount _ hret
          dsimp only at hequal
          omega
      · omega

/-- `<a/>` does not go into a buffer of four bytes. -/
theorem empty_element_missed : ¬ ∀ node size prolog, PrintsRight node size prolog := by
  intro hall
  have hprints := (hall (.mk [97] [] [] .nil) 4 false).1.mpr (by decide +kernel)
  revert hprints
  decide +kernel

end Voxlib.Xml
