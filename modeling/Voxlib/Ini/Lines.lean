import Voxlib.Ini

/-!
# Lines

What the parser makes of the lines that the writer prints.
-/

namespace Voxlib.Ini
open CStr Json List

def Eol (e : Bytes) : Prop := e = [10] ∨ e = [13] ∨ e = [13, 10]

def CommentOk (comment : Bytes) : Prop :=
  ∃ ch body e, comment = ch :: (body ++ e) ∧ (ch = 59 ∨ ch = 35) ∧
    (∀ c ∈ body, c ≠ 10 ∧ c ≠ 13) ∧ Eol e

def Flush (text : Bytes) : Prop := ∀ c ∈ text.head?, isWhitespace c = false

def Tight (text : Bytes) : Prop := ∀ c ∈ text.getLast?, isWhitespace c = false

structure NameOk (name : Bytes) : Prop where
  inside : ∀ c ∈ name, c ≠ 93 ∧ c ≠ 10
  flush : Flush name
  tight : Tight name

structure PairOk (kv : KeyValue) : Prop where
  key : ∀ c ∈ kv.key, c ≠ 61 ∧ c ≠ 10
  start : ∀ c ∈ kv.key.head?, isWhitespace c = false ∧ c ≠ 59 ∧ c ≠ 35 ∧ c ≠ 91
  keyTight : Tight kv.key
  value : ∀ c ∈ kv.value, c ≠ 10 ∧ c ≠ 13
  valueStart : ∀ c ∈ kv.value.head?, c ≠ 32 ∧ c ≠ 9
  valueTight : Tight kv.value

variable {text : Bytes}

theorem skipWs_flush (h : Flush text) : skipWs text = text := by
  cases text with
  | nil => rfl
  | cons c text => exact dropWhile_cons_of_neg (by simp [h c rfl])

theorem skipWs_flush_of (text : Bytes) : Flush (skipWs text) := by
  intro c hc
  have hhead := List.head?_dropWhile_not isWhitespace text
  rw [skipWs] at hc
  rw [Option.mem_def.mp hc] at hhead
  simpa using hhead

theorem trimEnd_tight (text : Bytes) : Tight (trimEnd text) := by
  intro c hc
  have hne : trimEnd text ≠ [] := by
    intro hnil
    rw [hnil] at hc
    cases hc
  have hlast := rdropWhile_last_not isWhitespace text hne
  rw [List.getLast?_eq_some_getLast hne] at hc
  cases hc
  exact eq_false_of_ne_true hlast

theorem trimEnd_of_tight (h : Tight text) : trimEnd text = text := by
  rw [trimEnd, rdropWhile_eq_self_iff]
  intro hne
  have hlast := h (text.getLast hne) (List.getLast?_eq_some_getLast hne)
  simp [hlast]

theorem trimEnd_mem {c : UInt8} (h : c ∈ trimEnd text) : c ∈ text :=
  (List.rdropWhile_prefix isWhitespace text).mem h

theorem trimEnd_append (text : Bytes) {blank : Bytes}
    (hblank : ∀ c ∈ blank, isWhitespace c = true) : trimEnd (text ++ blank) = trimEnd text := by
  induction blank using List.reverseRecOn with
  | nil => rw [append_nil]
  | append_singleton blank c ih =>
    rw [← append_assoc, trimEnd, rdropWhile_concat_pos _ _ _
      (hblank c (mem_append_right _ (mem_singleton_self c)))]
    exact ih fun d hd => hblank d (mem_append_left _ hd)

theorem trimEnd_head {c : UInt8} (h : c ∈ (trimEnd text).head?) : c ∈ text.head? := by
  obtain ⟨behind, hsplit⟩ := List.rdropWhile_prefix isWhitespace text
  rw [trimEnd] at h
  rw [← hsplit]
  cases hfront : text.rdropWhile isWhitespace with
  | nil =>
    rw [hfront] at h
    cases h
  | cons d front =>
    rw [hfront] at h
    exact h

theorem splitEol_line {body : Bytes} (hbody : ∀ c ∈ body, c ≠ 10 ∧ c ≠ 13) {e x : Bytes}
    (he : e = [10] ∨ e = [13, 10]) : splitEol (body ++ (e ++ x)) = (body ++ e, x) := by
  induction body with
  | nil => rcases he with rfl | rfl <;> rfl
  | cons c body ih =>
    obtain ⟨hlf, hcr⟩ := hbody c (mem_cons_self ..)
    rw [cons_append, splitEol, if_neg hlf, if_neg hcr,
      ih fun d hd => hbody d (mem_cons_of_mem _ hd)]
    rfl

theorem splitEol_spec (cur : Bytes) : ∃ body e, (splitEol cur).1 = body ++ e ∧
    (∀ c ∈ body, c ≠ 10 ∧ c ≠ 13) ∧ (Eol e ∨ e = [] ∧ (splitEol cur).2 = []) ∧
    cur = (splitEol cur).1 ++ (splitEol cur).2 := by
  induction cur with
  | nil => exact ⟨[], [], rfl, nofun, .inr ⟨rfl, rfl⟩, rfl⟩
  | cons ch rest ih =>
    rw [splitEol]
    split_ifs with hlf hcr hnext
    · exact ⟨[], [ch], rfl, nofun, .inl (.inl (by rw [hlf])), rfl⟩
    · refine ⟨[], [ch, 10], rfl, nofun, .inl (.inr (.inr (by rw [hcr]))), ?_⟩
      cases rest with
      | nil => cases hnext
      | cons c rest =>
        cases hnext
        rfl
    · exact ⟨[], [ch], rfl, nofun, .inl (.inr (.inl (by rw [hcr]))), rfl⟩
    · obtain ⟨body, e, hline, hbody, hend, hsplit⟩ := ih
      refine ⟨ch :: body, e, by rw [hline]; rfl, ?_, hend, ?_⟩
      · intro c hc
        rcases mem_cons.mp hc with rfl | hc
        · exact ⟨hlf, hcr⟩
        · exact hbody c hc
      · rw [cons_append, ← hsplit]

theorem parse_end (n : ℕ) (current : Option Section) (pending : Option Bytes) :
    parseFrom n current pending [] = current.toList := by
  cases n with
  | zero => rfl
  | succ n => rfl

theorem parse_blank (n : ℕ) (current : Option Section) (pending : Option Bytes) (x : Bytes) :
    parseFrom n current pending (10 :: x) = parseFrom n current pending x := by
  cases n with
  | zero => rfl
  | succ n =>
    have hskip : skipWs (10 :: x) = skipWs x := dropWhile_cons_of_pos rfl
    rw [parseFrom, parseFrom, hskip]

theorem parse_comment {ch : UInt8} {body e : Bytes} (hch : ch = 59 ∨ ch = 35)
    (hbody : ∀ c ∈ body, c ≠ 10 ∧ c ≠ 13) (he : e = [10] ∨ e = [13, 10]) (n : ℕ)
    (current : Option Section) (pending : Option Bytes) (x : Bytes) :
    parseFrom (n + 1) current pending (ch :: (body ++ (e ++ x))) =
      parseFrom n current (some (ch :: (body ++ e))) x := by
  have hplain : isWhitespace ch = false ∧ ch ≠ 10 ∧ ch ≠ 13 := by
    rcases hch with rfl | rfl <;> decide
  have hskip : skipWs (ch :: (body ++ (e ++ x))) = ch :: (body ++ (e ++ x)) :=
    dropWhile_cons_of_neg (by simp [hplain.1])
  have hline : splitEol (ch :: (body ++ (e ++ x))) = (ch :: (body ++ e), x) := by
    rw [splitEol, if_neg hplain.2.1, if_neg hplain.2.2, splitEol_line hbody he]
  rw [parseFrom, hskip]
  simp only [hch, if_true, hline]

theorem parse_header {name : Bytes} (h : NameOk name) (n : ℕ) (current : Option Section)
    (pending : Option Bytes) (x : Bytes) : parseFrom (n + 1) current pending (header name ++ x) =
      current.toList ++ parseFrom n (some ⟨some name, pending, []⟩) none x := by
  have hstart : Flush (name ++ 93 :: 10 :: x) := by
    cases name with
    | nil =>
      intro c hc
      cases hc
      decide
    | cons d name => exact h.flush
  obtain ⟨htake, hdrop⟩ := takeWhile_stop (p := fun ch => decide (ch ≠ 93 ∧ ch ≠ 10))
    (x := 93 :: 10 :: x) (fun d hd => decide_eq_true (h.inside d hd))
    (by intro c hc; cases hc; decide)
  have hread : parseHeader (name ++ 93 :: 10 :: x) = (name, x) := by
    rw [parseHeader, skipWs_flush hstart]
    rw [htake, hdrop, trimEnd_of_tight h.tight]
    rfl
  have hbytes : header name ++ x = 91 :: (name ++ 93 :: 10 :: x) := by simp [header]
  have hskip : skipWs (91 :: (name ++ 93 :: 10 :: x)) = 91 :: (name ++ 93 :: 10 :: x) :=
    dropWhile_cons_of_neg (by decide)
  rw [hbytes, parseFrom, hskip]
  simp [hread]

theorem parse_pair {kv : KeyValue} (h : PairOk kv) (n : ℕ) (current : Option Section)
    (pending : Option Bytes) (x : Bytes) : parseFrom (n + 1) current pending (kv.line ++ x) =
      parseFrom n (some { current.getD ⟨none, none, []⟩ with
        keyvalues := (current.getD ⟨none, none, []⟩).keyvalues ++ [kv] }) pending x := by
  have hbytes : kv.line ++ x = kv.key ++ 61 :: (kv.value ++ ([10] ++ x)) := by
    simp [KeyValue.line]
  obtain ⟨htake, hdrop⟩ := takeWhile_stop (p := fun ch => decide (ch ≠ 61 ∧ ch ≠ 10))
    (x := 61 :: (kv.value ++ ([10] ++ x))) (fun d hd => decide_eq_true (h.key d hd))
    (by intro c hc; cases hc; decide)
  have hvalue : (kv.value ++ ([10] ++ x)).dropWhile (fun ch => ch = 32 ∨ ch = 9) =
      kv.value ++ ([10] ++ x) := by
    cases hv : kv.value with
    | nil => rfl
    | cons c v =>
      obtain ⟨hspace, htab⟩ := h.valueStart c (by rw [hv]; rfl)
      exact dropWhile_cons_of_neg (by simp [hspace, htab])
  have hread : parsePair (kv.key ++ 61 :: (kv.value ++ ([10] ++ x))) = (some kv, x) := by
    have htrim : trimEnd (kv.value ++ [10]) = kv.value := by
      rw [trimEnd_append kv.value (by simp [isWhitespace]), trimEnd_of_tight h.valueTight]
    rw [parsePair]
    dsimp only
    rw [htake, hdrop, List.head?_cons, if_pos rfl, tail_cons, hvalue,
      splitEol_line h.value (.inl rfl), htrim, trimEnd_of_tight h.keyTight]
  have hfront : ∃ ch rest, kv.key ++ 61 :: (kv.value ++ ([10] ++ x)) = ch :: rest ∧
      isWhitespace ch = false ∧ ¬ (ch = 59 ∨ ch = 35) ∧ ch ≠ 91 := by
    cases hk : kv.key with
    | nil => exact ⟨61, _, rfl, by decide, by decide, by decide⟩
    | cons c k =>
      obtain ⟨hblank, hsemi, hhash, hopen⟩ := h.start c (by rw [hk]; rfl)
      exact ⟨c, _, rfl, hblank, not_or.mpr ⟨hsemi, hhash⟩, hopen⟩
  obtain ⟨ch, rest, hsplit, hblank, hcomment, hopen⟩ := hfront
  rw [hbytes, parseFrom]
  rw [hsplit] at hread ⊢
  have hskip : skipWs (ch :: rest) = ch :: rest := dropWhile_cons_of_neg (by simp [hblank])
  rw [hskip]
  simp only [if_neg hcomment, if_neg hopen, hread]

theorem takeWhile_head {p : UInt8 → Bool} {c : UInt8} (h : c ∈ (text.takeWhile p).head?) :
    c ∈ text.head? := by
  cases text with
  | nil => cases h
  | cons d text =>
    rw [takeWhile_cons] at h
    split_ifs at h
    · exact h
    · cases h

theorem header_ok (cur : Bytes) : NameOk (parseHeader cur).1 := by
  refine ⟨?_, ?_, trimEnd_tight _⟩
  · intro c hc
    have hkeep := mem_takeWhile_imp (trimEnd_mem hc)
    simpa using hkeep
  · intro c hc
    exact skipWs_flush_of cur c (takeWhile_head (trimEnd_head hc))

theorem eol_blank {e : Bytes} (h : Eol e) : ∀ c ∈ e, isWhitespace c = true := by
  rcases h with rfl | rfl | rfl <;> simp [isWhitespace]

theorem pair_ok {ch : UInt8} {rest behind : Bytes} {kv : KeyValue}
    (hblank : isWhitespace ch = false) (hcomment : ¬ (ch = 59 ∨ ch = 35)) (hopen : ch ≠ 91)
    (h : parsePair (ch :: rest) = (some kv, behind)) : PairOk kv := by
  rw [parsePair] at h
  split_ifs at h
  · obtain ⟨hkv, -⟩ := Prod.mk.inj h
    cases hkv
    obtain ⟨body, e, hline, hbody, hend, hsplit⟩ := splitEol_spec (((ch :: rest).dropWhile
      fun ch => ch ≠ 61 ∧ ch ≠ 10).tail.dropWhile fun ch => ch = 32 ∨ ch = 9)
    have htrim : trimEnd (body ++ e) = trimEnd body := by
      rcases hend with hend | ⟨rfl, -⟩
      · exact trimEnd_append body (eol_blank hend)
      · rw [append_nil]
    refine ⟨?_, ?_, trimEnd_tight _, ?_, ?_, trimEnd_tight _⟩
    · intro c hc
      have hkeep := mem_takeWhile_imp (trimEnd_mem hc)
      simpa using hkeep
    · intro c hc
      cases takeWhile_head (trimEnd_head hc)
      exact ⟨hblank, fun h => hcomment (.inl h), fun h => hcomment (.inr h), hopen⟩
    · rw [hline, htrim]
      intro c hc
      exact hbody c (trimEnd_mem hc)
    · intro c hc
      have hfirst := trimEnd_head hc
      have hhead : c ∈ (((ch :: rest).dropWhile fun ch => ch ≠ 61 ∧ ch ≠ 10).tail.dropWhile
          fun ch => ch = 32 ∨ ch = 9).head? := by
        rw [hsplit]
        exact Option.mem_def.mpr (List.head?_append.trans (by rw [hfirst]; rfl))
      have hstop := List.head?_dropWhile_not (fun ch : UInt8 => decide (ch = 32 ∨ ch = 9))
        ((ch :: rest).dropWhile fun ch => ch ≠ 61 ∧ ch ≠ 10).tail
      rw [Option.mem_def.mp hhead] at hstop
      simpa using hstop
  · cases h

theorem comment_ok {ch : UInt8} {rest : Bytes} (hch : ch = 59 ∨ ch = 35) :
    CommentOk (splitEol (ch :: rest)).1 ∨ (splitEol (ch :: rest)).2 = [] := by
  have hplain : ch ≠ 10 ∧ ch ≠ 13 := by rcases hch with rfl | rfl <;> decide
  obtain ⟨body, e, hline, hbody, hend, -⟩ := splitEol_spec rest
  rw [splitEol, if_neg hplain.1, if_neg hplain.2]
  rcases hend with hend | ⟨-, hnone⟩
  · left
    refine ⟨ch, body, e, ?_, hch, hbody, hend⟩
    rw [hline]
  · exact .inr hnone

end Voxlib.Ini
