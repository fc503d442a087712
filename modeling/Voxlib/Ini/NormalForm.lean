import Voxlib.Ini.Lines

/-!
# The normal form

The printed text of what was parsed is its own normal form.
-/

namespace Voxlib.Ini
open CStr Json List

structure SectionOk (sec : Section) : Prop where
  comment : ∀ c ∈ sec.comment, CommentOk c
  pairs : ∀ kv ∈ sec.keyvalues, PairOk kv

def Named (sec : Section) : Prop := SectionOk sec ∧ ∃ name, sec.name = some name ∧ NameOk name

def Unnamed (sec : Section) : Prop :=
  SectionOk sec ∧ sec.name = none ∧ sec.comment = none ∧ sec.keyvalues ≠ []

/-- What the parser returns: named sections, behind at most one without a name. -/
def Document (sections : List Section) : Prop :=
  (∀ sec ∈ sections, Named sec) ∨
    ∃ first rest, sections = first :: rest ∧ Unnamed first ∧ ∀ sec ∈ rest, Named sec

def Section.add (sec : Section) (kv : KeyValue) : Section :=
  { sec with keyvalues := sec.keyvalues ++ [kv] }

variable {sec : Section}

theorem SectionOk.add (h : SectionOk sec) {kv : KeyValue} (hkv : PairOk kv) :
    SectionOk (sec.add kv) := by
  refine ⟨h.comment, ?_⟩
  intro kv' hmem
  rcases mem_append.mp hmem with hold | hnew
  · exact h.pairs kv' hold
  · rw [mem_singleton.mp hnew]
    exact hkv

theorem Named.add (h : Named sec) {kv : KeyValue} (hkv : PairOk kv) :
    Named (sec.add kv) := ⟨h.1.add hkv, h.2⟩

theorem Unnamed.add (h : Unnamed sec) {kv : KeyValue} (hkv : PairOk kv) : Unnamed (sec.add kv) := by
  obtain ⟨hok, hname, hcomment, -⟩ := h
  exact ⟨hok.add hkv, hname, hcomment, by simp [Section.add]⟩

/- The comment that waits is a whole line, unless nothing comes behind it. -/
def Waiting (pending : Option Bytes) (cur : Bytes) : Prop :=
  ∀ c ∈ pending, CommentOk c ∨ cur = []

theorem Waiting.ok {pending : Option Bytes} {cur : Bytes} (h : Waiting pending cur)
    (hne : skipWs cur ≠ []) : ∀ c ∈ pending, CommentOk c := by
  intro c hc
  rcases h c hc with hok | hnil
  · exact hok
  · rw [hnil] at hne
    exact (hne rfl).elim

theorem Waiting.of_ok {pending : Option Bytes} (h : ∀ c ∈ pending, CommentOk c) (cur : Bytes) :
    Waiting pending cur := fun c hc => .inl (h c hc)

theorem Waiting.nothing (cur : Bytes) : Waiting none cur :=
  fun c hc => absurd hc (Option.not_mem_none c)

/-- A header begins a section, with the comment in front of it. -/
theorem Named.fresh {comment : Option Bytes} {name : Bytes} (h : ∀ c ∈ comment, CommentOk c)
    (hname : NameOk name) : Named ⟨some name, comment, []⟩ :=
  ⟨⟨h, forall_mem_nil _⟩, name, rfl, hname⟩

/-- The section that the loop is in comes first, with its further pairs, and then named ones. -/
theorem parse_some (n : ℕ) : ∀ {K : Section → Prop} {sec : Section} {pending : Option Bytes}
    {cur : Bytes}, (∀ s, K s → ∀ kv, PairOk kv → K (s.add kv)) → K sec →
    Waiting pending cur → ∃ first rest, parseFrom n (some sec) pending cur = first :: rest ∧
      K first ∧ ∀ s ∈ rest, Named s := by
  induction n with
  | zero =>
    intro K sec pending cur _ hsec _
    exact ⟨sec, [], rfl, hsec, forall_mem_nil _⟩
  | succ n ih =>
    intro K sec pending cur hK hsec hwait
    have hflush := skipWs_flush_of cur
    rw [parseFrom]
    cases hcur : skipWs cur with
    | nil => exact ⟨sec, [], rfl, hsec, forall_mem_nil _⟩
    | cons ch rest =>
      have hok := hwait.ok (by rw [hcur]; exact cons_ne_nil ch rest)
      dsimp only
      split_ifs with hcomment hopen
      · refine ih hK hsec ?_
        intro c hc
        cases hc
        exact comment_ok hcomment
      · have hnew : Named ⟨some (parseHeader rest).1, pending, []⟩ := .fresh hok (header_ok rest)
        obtain ⟨first, more, hrun, hfirst, hmore⟩ :=
          @ih Named _ none (parseHeader rest).2 (fun _ h _ hkv => h.add hkv) hnew
            (.nothing _)
        refine ⟨sec, first :: more, ?_, hsec, ?_⟩
        · rw [hrun]
          rfl
        · intro s hs
          rcases mem_cons.mp hs with rfl | hs
          · exact hfirst
          · exact hmore s hs
      · have hblank : isWhitespace ch = false := hflush ch (by rw [hcur]; rfl)
        cases hpair : parsePair (ch :: rest) with
        | mk found behind =>
          cases found with
          | none => exact ih hK hsec (.of_ok hok behind)
          | some kv =>
            exact ih hK (hK sec hsec kv (pair_ok hblank hcomment hopen hpair)) (.of_ok hok behind)

theorem parse_document (n : ℕ) : ∀ {pending : Option Bytes} {cur : Bytes}, Waiting pending cur →
    Document (parseFrom n none pending cur) := by
  induction n with
  | zero =>
    intro pending cur _
    exact .inl (forall_mem_nil _)
  | succ n ih =>
    intro pending cur hwait
    have hflush := skipWs_flush_of cur
    rw [parseFrom]
    cases hcur : skipWs cur with
    | nil => exact .inl (forall_mem_nil _)
    | cons ch rest =>
      have hok := hwait.ok (by rw [hcur]; exact cons_ne_nil ch rest)
      dsimp only
      split_ifs with hcomment hopen
      · refine ih ?_
        intro c hc
        cases hc
        exact comment_ok hcomment
      · have hnew : Named ⟨some (parseHeader rest).1, pending, []⟩ := .fresh hok (header_ok rest)
        obtain ⟨first, more, hrun, hfirst, hmore⟩ :=
          @parse_some n Named _ none (parseHeader rest).2 (fun _ h _ hkv => h.add hkv) hnew
            (.nothing _)
        left
        rw [hrun]
        intro s hs
        rcases mem_cons.mp hs with rfl | hs
        · exact hfirst
        · exact hmore s hs
      · have hblank : isWhitespace ch = false := hflush ch (by rw [hcur]; rfl)
        cases hpair : parsePair (ch :: rest) with
        | mk found behind =>
          cases found with
          | none => exact ih (.of_ok hok behind)
          | some kv =>
            have hkv := pair_ok hblank hcomment hopen hpair
            have hnew : Unnamed ⟨none, none, [kv]⟩ := by
              refine ⟨⟨fun c hc => absurd hc (Option.not_mem_none c), ?_⟩, rfl, rfl, by simp⟩
              intro kv' hmem
              rw [mem_singleton.mp hmem]
              exact hkv
            obtain ⟨first, more, hrun, hfirst, hmore⟩ :=
              parse_some n (fun _ h _ hkv => h.add hkv) hnew (.of_ok hok behind)
            exact .inr ⟨first, more, hrun, hfirst, hmore⟩

def commentText (comment : Bytes) : Bytes :=
  if comment.getLast? = some 10 then comment else comment ++ [10]

def Section.text (sec : Section) : Bytes :=
  (sec.comment.map commentText).getD [] ++ ((sec.name.map header).getD [] ++
    (sec.keyvalues.flatMap KeyValue.line ++ [10]))

def Section.normal (sec : Section) : Section := { sec with comment := sec.comment.map commentText }

def Section.steps (sec : Section) : ℕ :=
  sec.comment.toList.length + sec.name.toList.length + sec.keyvalues.length

theorem commentText_ok {comment : Bytes} (h : CommentOk comment) :
    ∃ ch body e, commentText comment = ch :: (body ++ e) ∧ (ch = 59 ∨ ch = 35) ∧
      (∀ c ∈ body, c ≠ 10 ∧ c ≠ 13) ∧ (e = [10] ∨ e = [13, 10]) := by
  obtain ⟨ch, body, e, rfl, hch, hbody, he⟩ := h
  rw [commentText]
  rcases he with rfl | rfl | rfl
  · rw [if_pos (by rw [← cons_append, List.getLast?_append]; rfl)]
    exact ⟨ch, body, [10], rfl, hch, hbody, .inl rfl⟩
  · rw [if_neg (by rw [← cons_append, List.getLast?_append]; simp)]
    exact ⟨ch, body, [13, 10], by simp, hch, hbody, .inr rfl⟩
  · rw [if_pos (by rw [← cons_append, List.getLast?_append]; rfl)]
    exact ⟨ch, body, [13, 10], rfl, hch, hbody, .inr rfl⟩

theorem commentText_again (comment : Bytes) :
    commentText (commentText comment) = commentText comment := by
  have hlast : (commentText comment).getLast? = some 10 := by
    rw [commentText]
    split_ifs with h
    · exact h
    · simp
  rw [commentText, if_pos hlast]

theorem normal_text (sec : Section) : sec.normal.text = sec.text := by
  cases hc : sec.comment with
  | none => simp [Section.normal, Section.text, hc]
  | some c => simp [Section.normal, Section.text, hc, commentText_again]

theorem parse_pairs {kvs : List KeyValue} (h : ∀ kv ∈ kvs, PairOk kv) (n : ℕ) (sec : Section)
    (pending : Option Bytes) (x : Bytes) :
    parseFrom (n + kvs.length) (some sec) pending (kvs.flatMap KeyValue.line ++ x) =
      parseFrom n (some { sec with keyvalues := sec.keyvalues ++ kvs }) pending x := by
  induction kvs generalizing sec with
  | nil =>
    rw [append_nil]
    rfl
  | cons kv kvs ih =>
    have hkv := h kv (mem_cons_self ..)
    have hrest := ih (fun kv' hmem => h kv' (mem_cons_of_mem _ hmem)) (sec.add kv)
    rw [flatMap_cons, append_assoc, length_cons, ← Nat.add_assoc,
      parse_pair hkv, Option.getD_some]
    refine Eq.trans hrest ?_
    simp [Section.add]

theorem parse_section (h : Named sec) (n : ℕ) (current : Option Section) (x : Bytes) :
    parseFrom (n + sec.steps) current none (sec.text ++ x) =
      current.toList ++ parseFrom n (some sec.normal) none x := by
  obtain ⟨⟨hcomment, hpairs⟩, name, hname, hok⟩ := h
  have hbody : ∀ pending, parseFrom (n + sec.keyvalues.length + 1) current pending
      (header name ++ (sec.keyvalues.flatMap KeyValue.line ++ 10 :: x)) =
        current.toList ++ parseFrom n (some ⟨some name, pending, sec.keyvalues⟩) none x := by
    intro pending
    rw [parse_header hok, parse_pairs hpairs, parse_blank]
    rfl
  cases hc : sec.comment with
  | none =>
    have htext : sec.text ++ x =
        header name ++ (sec.keyvalues.flatMap KeyValue.line ++ 10 :: x) := by
      simp [Section.text, hc, hname]
    have hsteps : n + sec.steps = n + sec.keyvalues.length + 1 := by
      simp [Section.steps, hc, hname]
      omega
    have hnormal : sec.normal = ⟨some name, none, sec.keyvalues⟩ := by
      simp [Section.normal, hc, hname]
    rw [htext, hsteps, hbody, hnormal]
  | some c =>
    obtain ⟨ch, body, e, hline, hch, hfree, he⟩ := commentText_ok (hcomment c hc)
    have htext : sec.text ++ x = ch :: (body ++ (e ++
        (header name ++ (sec.keyvalues.flatMap KeyValue.line ++ 10 :: x)))) := by
      simp [Section.text, hc, hname, hline]
    have hsteps : n + sec.steps = n + sec.keyvalues.length + 1 + 1 := by
      simp [Section.steps, hc, hname]
      omega
    have hnormal : sec.normal = ⟨some name, some (ch :: (body ++ e)), sec.keyvalues⟩ := by
      simp [Section.normal, hc, hname, hline]
    rw [htext, hsteps, parse_comment hch hfree he, hbody, hnormal]

variable {sections : List Section}

theorem parse_sections (h : ∀ sec ∈ sections, Named sec) (n : ℕ) (current : Option Section) :
    parseFrom (n + (sections.map Section.steps).sum) current none
      (sections.flatMap Section.text) = current.toList ++ sections.map Section.normal := by
  induction sections generalizing current with
  | nil =>
    rw [flatMap_nil, parse_end]
    simp
  | cons sec rest ih =>
    have hrest := ih (fun s hs => h s (mem_cons_of_mem _ hs)) (some sec.normal)
    rw [map_cons, sum_cons, flatMap_cons, Nat.add_comm sec.steps, ← Nat.add_assoc,
      parse_section (h sec (mem_cons_self ..)), hrest]
    rfl

theorem parse_unnamed (h : Unnamed sec) (n : ℕ) (x : Bytes) :
    parseFrom (n + sec.steps) none none (sec.text ++ x) = parseFrom n (some sec.normal) none x := by
  obtain ⟨⟨-, hpairs⟩, hname, hcomment, hne⟩ := h
  obtain ⟨kv, kvs, hkvs⟩ := exists_cons_of_ne_nil hne
  have hkv := hpairs kv (by rw [hkvs]; exact mem_cons_self ..)
  have hmore : ∀ kv' ∈ kvs, PairOk kv' :=
    fun kv' hmem => hpairs kv' (by rw [hkvs]; exact mem_cons_of_mem _ hmem)
  have htext : sec.text ++ x = kv.line ++ (kvs.flatMap KeyValue.line ++ 10 :: x) := by
    simp [Section.text, hname, hcomment, hkvs]
  have hsteps : n + sec.steps = n + kvs.length + 1 := by
    simp [Section.steps, hname, hcomment, hkvs]
    omega
  have hnormal : sec.normal = ⟨none, none, kv :: kvs⟩ := by
    simp [Section.normal, hname, hcomment, hkvs]
  rw [htext, hsteps, parse_pair hkv, parse_pairs hmore, parse_blank, hnormal]
  rfl

theorem steps_le (sec : Section) : sec.steps ≤ sec.text.length := by
  have hpairs : sec.keyvalues.length ≤ (sec.keyvalues.flatMap KeyValue.line).length := by
    induction sec.keyvalues with
    | nil => exact Nat.le_refl _
    | cons kv kvs ih =>
      rw [flatMap_cons, length_append, KeyValue.line, length_append,
        length_cons, length_cons]
      omega
  have hcomment : sec.comment.toList.length ≤ ((sec.comment.map commentText).getD []).length := by
    cases sec.comment with
    | none => exact Nat.le_refl _
    | some c =>
      rw [Option.toList_some, length_singleton, Option.map_some, Option.getD_some, commentText]
      split_ifs with hlast
      · cases c with
        | nil => cases hlast
        | cons ch c => exact Nat.succ_pos _
      · rw [length_append]
        exact Nat.le_add_left 1 _
  have hname : sec.name.toList.length ≤ ((sec.name.map header).getD []).length := by
    cases sec.name with
    | none => exact Nat.le_refl _
    | some name => exact Nat.succ_pos _
  rw [Section.steps, Section.text, length_append, length_append, length_append]
  omega

theorem sum_steps_le (sections : List Section) :
    (sections.map Section.steps).sum ≤ (sections.flatMap Section.text).length := by
  induction sections with
  | nil => exact Nat.le_refl _
  | cons sec rest ih =>
    have hfirst := steps_le sec
    rw [map_cons, sum_cons, flatMap_cons, length_append]
    omega

theorem parse_printed (h : Document sections) :
    iniParse (sections.flatMap Section.text) = sections.map Section.normal := by
  have hsteps := sum_steps_le sections
  obtain ⟨n, hn⟩ : ∃ n, (sections.flatMap Section.text).length + 1 =
      n + (sections.map Section.steps).sum := Nat.exists_eq_add_of_le' (by omega)
  rw [iniParse, hn]
  rcases h with hall | ⟨first, rest, rfl, hfirst, hrest⟩
  · exact parse_sections hall n none
  · rw [map_cons, sum_cons, flatMap_cons, Nat.add_comm first.steps, ← Nat.add_assoc,
      parse_unnamed hfirst, parse_sections hrest]
    rfl

/- There is room for so many bytes and a NUL, and no write went past the end. -/
def Room (b : Buf) (k : ℕ) : Prop := b.within = true ∧ b.bytes.length + k < b.capacity

/- A write that adds this text, where there is room for it, when it can be counted. -/
def Prints (write : Buf → Option Buf) (text : Bytes) (counted : Prop) : Prop :=
  ∀ b k, Room b (k + text.length) → (counted → ∃ b', write b = some b' ∧
    b'.bytes = b.bytes ++ text ∧ Room b' k) ∧ (¬ counted → write b = none)

theorem prints_nothing : Prints some [] True := by
  intro b k hroom
  rw [length_nil, Nat.add_zero] at hroom
  exact ⟨fun _ => ⟨b, rfl, (append_nil _).symm, hroom⟩, fun h => (h trivial).elim⟩

theorem prints_sprintf (text : Bytes) :
    Prints (fun b => b.sprintf text) text (text.length ≤ 2 ^ 31 - 1) := by
  intro b k ⟨hwithin, hroom⟩
  refine ⟨fun h => ⟨_, if_pos h, rfl, ?_, ?_⟩, fun h => if_neg h⟩
  · have hfits : b.bytes.length + text.length + 1 ≤ b.capacity := by omega
    simp [hwithin, hfits]
  · dsimp only
    rw [length_append]
    omega

theorem Prints.bind {first second : Buf → Option Buf} {s t : Bytes} {p q : Prop}
    (hfirst : Prints first s p) (hsecond : Prints second t q) :
    Prints (fun b => (first b).bind second) (s ++ t) (p ∧ q) := by
  intro b k hroom
  rw [length_append, Nat.add_comm s.length, ← Nat.add_assoc] at hroom
  obtain ⟨hrun, hfail⟩ := hfirst b (k + t.length) hroom
  by_cases hp : p
  · obtain ⟨mid, hmid, hbytes, hleft⟩ := hrun hp
    obtain ⟨hrun', hfail'⟩ := hsecond mid k hleft
    refine ⟨?_, ?_⟩
    · rintro ⟨-, hq⟩
      obtain ⟨b', hb', hbytes', hleft'⟩ := hrun' hq
      beta_reduce
      rw [hmid]
      exact ⟨b', hb', by rw [hbytes', hbytes, append_assoc], hleft'⟩
    · intro hnot
      beta_reduce
      rw [hmid]
      exact hfail' fun hq => hnot ⟨hp, hq⟩
  · refine ⟨fun h => (hp h.1).elim, fun _ => ?_⟩
    beta_reduce
    rw [hfail hp]
    rfl

theorem prints_comment {comment : Bytes} (hne : comment ≠ []) :
    Prints (fun b => (b.sprintf comment).map Buf.endLine) (commentText comment)
      (comment.length ≤ 2 ^ 31 - 1) := by
  intro b k hroom
  have hlast : (b.bytes ++ comment).getLast? = comment.getLast? := by
    rw [List.getLast?_append, List.getLast?_eq_some_getLast hne]
    rfl
  beta_reduce
  by_cases hlf : comment.getLast? = some 10
  · have htext : commentText comment = comment := if_pos hlf
    rw [htext] at hroom ⊢
    obtain ⟨hrun, hfail⟩ := prints_sprintf comment b k hroom
    beta_reduce at hrun hfail
    refine ⟨?_, ?_⟩
    · intro h
      obtain ⟨b', hb', hbytes, hleft⟩ := hrun h
      refine ⟨b', ?_, hbytes, hleft⟩
      rw [hb', Option.map_some, Buf.endLine, hbytes, hlast, if_pos hlf]
    · intro h
      rw [hfail h, Option.map_none]
  · have htext : commentText comment = comment ++ [10] := if_neg hlf
    rw [htext, length_append, ← Nat.add_assoc, Nat.add_right_comm] at hroom
    rw [htext]
    obtain ⟨hrun, hfail⟩ := prints_sprintf comment b (k + 1) hroom
    beta_reduce at hrun hfail
    refine ⟨?_, ?_⟩
    · intro h
      obtain ⟨b', hb', hbytes, hwithin, hleft⟩ := hrun h
      have hone : b'.bytes.length + 1 ≤ b'.capacity := by omega
      rw [hb', Option.map_some, Buf.endLine, hbytes, hlast, if_neg hlf]
      refine ⟨_, rfl, append_assoc _ _ _, ?_, ?_⟩
      · rw [hbytes] at hone
        dsimp only
        rw [hwithin, decide_eq_true hone]
        rfl
      · rw [length_append, ← hbytes]
        exact (by omega : b'.bytes.length + 1 + k < b'.capacity)
    · intro h
      rw [hfail h, Option.map_none]

theorem prints_optional {α : Type} {found : Option α} {write : Buf → Option Buf}
    {text : α → Bytes} {counted : α → Prop} (hnone : found = none → write = some)
    (hsome : ∀ a, found = some a → Prints write (text a) (counted a)) :
    Prints write ((found.map text).getD []) (∀ a ∈ found, counted a) := by
  intro b k hroom
  cases found with
  | none =>
    rw [hnone rfl]
    obtain ⟨hrun, -⟩ := prints_nothing b k hroom
    exact ⟨fun _ => hrun trivial, fun hnot => (hnot nofun).elim⟩
  | some a =>
    obtain ⟨hrun, hfail⟩ := hsome a rfl b k hroom
    refine ⟨fun hall => hrun (hall a rfl), fun hnot => hfail fun ha => hnot ?_⟩
    intro a' ha'
    cases ha'
    exact ha

theorem prints_pairs (kvs : List KeyValue) :
    Prints (fun b => kvs.foldlM (fun b kv => b.sprintf kv.line) b) (kvs.flatMap KeyValue.line)
      (∀ kv ∈ kvs, kv.line.length ≤ 2 ^ 31 - 1) := by
  induction kvs with
  | nil =>
    intro b k hroom
    obtain ⟨hrun, -⟩ := prints_nothing b k hroom
    exact ⟨fun _ => hrun trivial, fun hnot => (hnot nofun).elim⟩
  | cons kv kvs ih =>
    intro b k hroom
    obtain ⟨hrun, hfail⟩ := (prints_sprintf kv.line).bind ih b k hroom
    rw [← forall_mem_cons (p := fun kv : KeyValue => kv.line.length ≤ 2 ^ 31 - 1)]
      at hrun hfail
    exact ⟨hrun, hfail⟩

def Section.Counted (sec : Section) : Prop :=
  (∀ c ∈ sec.comment, c.length ≤ 2 ^ 31 - 1) ∧
  (∀ name ∈ sec.name, (header name).length ≤ 2 ^ 31 - 1) ∧
  ∀ kv ∈ sec.keyvalues, kv.line.length ≤ 2 ^ 31 - 1

theorem doubleUntil_gt {need n cap : ℕ} (hcap : 0 < cap) (h : need < cap + n) :
    need < doubleUntil need n cap := by
  induction n generalizing cap with
  | zero => exact h
  | succ n ih =>
    rw [doubleUntil]
    split_ifs with hle
    · exact ih (by omega) (by omega)
    · omega

theorem text_le_needed (sec : Section) : sec.text.length ≤ sec.needed := by
  have hpairs : (sec.keyvalues.flatMap KeyValue.line).length ≤
      (sec.keyvalues.map fun kv => kv.key.length + kv.value.length + 4).sum := by
    induction sec.keyvalues with
    | nil => exact Nat.le_refl _
    | cons kv kvs ih =>
      rw [flatMap_cons, length_append, map_cons, sum_cons]
      simp only [KeyValue.line, length_append, length_cons, length_nil]
      omega
  have hcomment : ∀ c : Bytes, (commentText c).length ≤ c.length + 2 := by
    intro c
    rw [commentText]
    split_ifs
    · omega
    · rw [length_append, length_singleton]
      omega
  rw [Section.text, Section.needed, length_append, length_append, length_append,
    length_singleton]
  cases sec.comment with
  | none =>
    cases sec.name with
    | none =>
      simp only [Option.map_none, Option.getD_none, length_nil]
      omega
    | some name =>
      simp only [Option.map_none, Option.map_some, Option.getD_none, Option.getD_some,
        length_nil, header, length_cons, length_append]
      omega
  | some c =>
    have hc := hcomment c
    cases sec.name with
    | none =>
      simp only [Option.map_none, Option.map_some, Option.getD_none, Option.getD_some,
        length_nil]
      omega
    | some name =>
      simp only [Option.map_some, Option.getD_some, length_nil, header, length_cons,
        length_append]
      omega

theorem grow_room {b : Buf} (h : Room b 0) (needed : ℕ) :
    (b.grow needed).bytes = b.bytes ∧ Room (b.grow needed) needed := by
  obtain ⟨hwithin, hroom⟩ := h
  rw [Buf.grow]
  split_ifs with hfull
  · refine ⟨rfl, hwithin, doubleUntil_gt ?_ ?_⟩
    · omega
    · dsimp only
      omega
  · exact ⟨rfl, hwithin, by omega⟩

theorem printSection_eq (hok : SectionOk sec) {b : Buf} (h : Room b 0) :
    (sec.Counted → ∃ b', b.printSection sec = some b' ∧ b'.bytes = b.bytes ++ sec.text ∧
      Room b' 0) ∧ (¬ sec.Counted → b.printSection sec = none) := by
  have hcomment : Prints (fun b => b.printComment sec.comment)
      ((sec.comment.map commentText).getD []) (∀ c ∈ sec.comment, c.length ≤ 2 ^ 31 - 1) := by
    apply prints_optional
    · intro hnone
      rw [hnone]
      rfl
    · intro c hc
      obtain ⟨ch, body, e, rfl, -⟩ := hok.comment c hc
      rw [hc]
      exact prints_comment (cons_ne_nil _ _)
  have hname : Prints (fun b => b.printName sec.name) ((sec.name.map header).getD [])
      (∀ name ∈ sec.name, (header name).length ≤ 2 ^ 31 - 1) := by
    apply prints_optional
    · intro hnone
      rw [hnone]
      rfl
    · intro name hname
      rw [hname]
      exact prints_sprintf (header name)
  have hall := hcomment.bind (hname.bind ((prints_pairs sec.keyvalues).bind (prints_sprintf [10])))
  obtain ⟨hbytes, hroom⟩ := grow_room h sec.needed
  have hneeded : Room (b.grow sec.needed) ((sec.needed - sec.text.length) + sec.text.length) := by
    rw [Nat.sub_add_cancel (text_le_needed sec)]
    exact hroom
  obtain ⟨hrun, hfail⟩ := hall (b.grow sec.needed) (sec.needed - sec.text.length) hneeded
  have hone : List.length [(10 : UInt8)] ≤ 2 ^ 31 - 1 := by decide
  refine ⟨?_, ?_⟩
  · rintro ⟨hc, hn, hp⟩
    obtain ⟨b', hb', htext, hwithin, hleft⟩ := hrun ⟨hc, hn, hp, hone⟩
    refine ⟨b', hb', ?_, hwithin, ?_⟩
    · rw [htext, hbytes]
      rfl
    · omega
  · intro hnot
    exact hfail fun ⟨hc, hn, hp, _⟩ => hnot ⟨hc, hn, hp⟩

theorem printSections_eq (hok : ∀ sec ∈ sections, SectionOk sec) {b : Buf} (h : Room b 0) :
    ((∀ sec ∈ sections, sec.Counted) → ∃ b', sections.foldlM Buf.printSection b = some b' ∧
      b'.bytes = b.bytes ++ sections.flatMap Section.text ∧ Room b' 0) ∧
    (¬ (∀ sec ∈ sections, sec.Counted) → sections.foldlM Buf.printSection b = none) := by
  induction sections generalizing b with
  | nil => exact ⟨fun _ => ⟨b, rfl, (append_nil _).symm, h⟩, fun hnot => (hnot nofun).elim⟩
  | cons sec rest ih =>
    obtain ⟨hrun, hfail⟩ := printSection_eq (hok sec (mem_cons_self ..)) h
    have hrest := fun (b : Buf) => @ih (fun s hs => hok s (mem_cons_of_mem _ hs)) b
    rw [forall_mem_cons, foldlM_cons]
    by_cases hsec : sec.Counted
    · obtain ⟨mid, hmid, hbytes, hroom⟩ := hrun hsec
      obtain ⟨hrun', hfail'⟩ := hrest mid hroom
      rw [hmid]
      refine ⟨?_, fun hnot => hfail' fun hall => hnot ⟨hsec, hall⟩⟩
      rintro ⟨-, hall⟩
      obtain ⟨b', hb', htext, hroom'⟩ := hrun' hall
      refine ⟨b', hb', ?_, hroom'⟩
      rw [htext, hbytes, flatMap_cons, append_assoc]
    · rw [hfail hsec]
      exact ⟨fun hall => (hsec hall.1).elim, fun _ => rfl⟩

theorem iniToString_eq (hok : ∀ sec ∈ sections, SectionOk sec) :
    ((∀ sec ∈ sections, sec.Counted) → ∃ b, iniToString sections = some b ∧
      b.bytes = sections.flatMap Section.text ∧ b.within = true) ∧
    (¬ (∀ sec ∈ sections, sec.Counted) → iniToString sections = none) := by
  have hstart : Room ⟨1024, [], true⟩ 0 := ⟨rfl, by decide⟩
  obtain ⟨hrun, hfail⟩ := printSections_eq hok hstart
  rw [iniToString]
  refine ⟨?_, fun hnot => by rw [hfail hnot]; rfl⟩
  intro hall
  obtain ⟨b, hb, hbytes, hwithin, hroom⟩ := hrun hall
  rw [hb]
  refine ⟨_, rfl, hbytes, ?_⟩
  have hend : b.bytes.length + 1 ≤ b.capacity := hroom
  dsimp only
  rw [hwithin, decide_eq_true hend]
  rfl

def contents (sections : List Section) : List (Option Bytes × List KeyValue) :=
  sections.map fun sec => (sec.name, sec.keyvalues)

/-- Printing what was parsed stays inside of the buffer, is parsed to the same contents, and is
printed the same again. -/
def NormalForm (text : Bytes) : Prop :=
  ∃ once, iniToString (iniParse text) = some once ∧ once.within = true ∧
    contents (iniParse once.bytes) = contents (iniParse text) ∧
    ∃ twice, iniToString (iniParse once.bytes) = some twice ∧ twice.within = true ∧
      twice.bytes = once.bytes

/-- No comment with its line feed, header or pair is longer than an `int` can say. -/
def Countable (text : Bytes) : Prop :=
  ∀ sec ∈ iniParse text, (∀ c ∈ sec.comment, (commentText c).length ≤ 2 ^ 31 - 1) ∧
    (∀ name ∈ sec.name, name.length + 3 ≤ 2 ^ 31 - 1) ∧
    ∀ kv ∈ sec.keyvalues, kv.key.length + kv.value.length + 2 ≤ 2 ^ 31 - 1

theorem Document.ok (h : Document sections) : ∀ sec ∈ sections, SectionOk sec := by
  intro sec hsec
  rcases h with hall | ⟨first, rest, rfl, hfirst, hrest⟩
  · exact (hall sec hsec).1
  · rcases mem_cons.mp hsec with rfl | hmem
    · exact hfirst.1
    · exact (hrest sec hmem).1

theorem SectionOk.normal (h : SectionOk sec) : SectionOk sec.normal := by
  refine ⟨?_, h.pairs⟩
  intro c hc
  obtain ⟨c', hc', rfl⟩ := Option.map_eq_some_iff.mp hc
  obtain ⟨ch, body, e, hline, hch, hbody, he⟩ := commentText_ok (h.comment c' hc')
  exact ⟨ch, body, e, hline, hch, hbody, he.imp id Or.inr⟩

theorem counted_normal : sec.normal.Counted ↔
    (∀ c ∈ sec.comment, (commentText c).length ≤ 2 ^ 31 - 1) ∧
    (∀ name ∈ sec.name, name.length + 3 ≤ 2 ^ 31 - 1) ∧
    ∀ kv ∈ sec.keyvalues, kv.key.length + kv.value.length + 2 ≤ 2 ^ 31 - 1 := by
  have hheader : ∀ name, (header name).length = name.length + 3 := by
    intro name
    simp [header]
  have hline : ∀ kv : KeyValue, kv.line.length = kv.key.length + kv.value.length + 2 := by
    intro kv
    simp [KeyValue.line]
    omega
  simp only [Section.Counted, Section.normal, Option.mem_map, forall_exists_index, and_imp,
    forall_apply_eq_imp_iff₂, hheader, hline]

theorem counted_of_normal (h : sec.normal.Counted) : sec.Counted := by
  refine ⟨?_, h.2⟩
  intro c hc
  have hlen := (counted_normal.mp h).1 c hc
  rw [commentText] at hlen
  split_ifs at hlen
  · exact hlen
  · rw [length_append] at hlen
    omega

/-- Every text has its normal form, unless a line of it is too long to be counted. -/
theorem ini_normal_form (text : Bytes) : NormalForm text ↔ Countable text := by
  have hdoc : Document (iniParse text) := parse_document _ (.nothing _)
  obtain ⟨hprint, hfail⟩ := iniToString_eq hdoc.ok
  have hread := parse_printed hdoc
  have hnormal : ∀ sec ∈ (iniParse text).map Section.normal, SectionOk sec := by
    intro sec hsec
    obtain ⟨s, hs, rfl⟩ := mem_map.mp hsec
    exact (hdoc.ok s hs).normal
  obtain ⟨hprint', hfail'⟩ := iniToString_eq hnormal
  have htexts : ((iniParse text).map Section.normal).flatMap Section.text =
      (iniParse text).flatMap Section.text := by
    rw [flatMap_map]
    exact congrArg (List.flatMap · _) (funext normal_text)
  have hcountable : Countable text ↔ ∀ sec ∈ (iniParse text).map Section.normal, sec.Counted := by
    rw [forall_mem_map]
    exact forall₂_congr fun sec _ => counted_normal.symm
  rw [hcountable]
  constructor
  · rintro ⟨once, honce, -, -, twice, htwice, -⟩
    by_contra hnot
    have hcounted : ∀ sec ∈ iniParse text, sec.Counted := by
      by_contra hno
      rw [hfail hno] at honce
      cases honce
    obtain ⟨b, hb, hbytes, -⟩ := hprint hcounted
    rw [hb] at honce
    cases honce
    rw [hbytes, hread, hfail' hnot] at htwice
    cases htwice
  · intro hall
    have hcounted : ∀ sec ∈ iniParse text, sec.Counted :=
      fun sec hsec => counted_of_normal (hall _ (mem_map_of_mem hsec))
    obtain ⟨once, honce, hbytes, hwithin⟩ := hprint hcounted
    obtain ⟨twice, htwice, hbytes', hwithin'⟩ := hprint' hall
    refine ⟨once, honce, hwithin, ?_, twice, ?_, hwithin', ?_⟩
    · rw [hbytes, hread, contents, contents, map_map]
      rfl
    · rw [hbytes, hread]
      exact htwice
    · rw [hbytes', htexts, hbytes]

def longComment (n : ℕ) : Bytes := 59 :: (List.replicate n 97 ++ ([10] ++ header (lit "s")))

theorem parse_longComment (n : ℕ) : iniParse (longComment n) =
    [⟨some (lit "s"), some (59 :: (List.replicate n 97 ++ [10])), []⟩] := by
  have hletters : ∀ c ∈ List.replicate n (97 : UInt8), c ≠ 10 ∧ c ≠ 13 := by
    intro c hc
    rw [eq_of_mem_replicate hc]
    decide
  have hname : NameOk (lit "s") := by
    have hs : lit "s" = [115] := by decide
    have hend : ∀ c ∈ some (115 : UInt8), isWhitespace c = false := by
      intro c hc
      cases hc
      rfl
    rw [hs]
    exact ⟨by simp, hend, hend⟩
  obtain ⟨m, hm⟩ : ∃ m, (longComment n).length + 1 = m + 1 + 1 := by
    refine ⟨(List.replicate n (97 : UInt8) ++ ([10] ++ header (lit "s"))).length, ?_⟩
    rw [longComment, length_cons]
  have hheader := parse_header hname m none (some (59 :: (List.replicate n 97 ++ [10]))) []
  rw [append_nil, parse_end] at hheader
  rw [iniParse, hm, longComment, parse_comment (.inl rfl) hletters (.inl rfl), hheader]
  rfl

/-- A comment of 2^31 letters cannot be printed. -/
theorem long_comment_fails : iniToString (iniParse (longComment (2 ^ 31))) = none ∧
    ¬ NormalForm (longComment (2 ^ 31)) := by
  have hdoc : Document (iniParse (longComment (2 ^ 31))) := parse_document _ (.nothing _)
  have hfails : iniToString (iniParse (longComment (2 ^ 31))) = none := by
    refine (iniToString_eq hdoc.ok).2 ?_
    intro hall
    rw [parse_longComment] at hall
    have hlen := (hall _ (mem_singleton_self _)).1 _ rfl
    rw [length_cons, length_append, length_replicate] at hlen
    omega
  refine ⟨hfails, ?_⟩
  rintro ⟨once, honce, -⟩
  rw [hfails] at honce
  cases honce

end Voxlib.Ini
