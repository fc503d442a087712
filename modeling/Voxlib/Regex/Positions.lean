import Voxlib.Regex.Match

/-!
# Positions

A tree denotes a relation between the positions of a text; it is matched when its two ends are
related.
-/

namespace Voxlib.Regex
open CStr
open scoped Computability

def times (r : ℕ → ℕ → Prop) : ℕ → ℕ → ℕ → Prop
  | 0 => Eq
  | n + 1 => Relation.Comp r (times r n)

def Quantifier.relates (r : ℕ → ℕ → Prop) : Quantifier → ℕ → ℕ → Prop
  | .star => Relation.ReflTransGen r
  | .plus => Relation.TransGen r
  | .optional => Relation.ReflGen r
  | .exactly n => times r n
  | .atLeast n => fun p q => ∃ k, n ≤ k ∧ times r k p q
  | .between n m => fun p q => ∃ k, n ≤ k ∧ k ≤ m ∧ times r k p q

section Relates

variable (multiline : Bool) (text : Bytes)

def readsOne (cond : UInt8 → Bool) (p q : ℕ) : Prop :=
  ∃ c ∈ text[p]?, cond c = true ∧ q = p + 1

def staysAt (t : Test) (p q : ℕ) : Prop := t.Holds multiline text p ∧ p = q

mutual

def Atom.relates : Atom → ℕ → ℕ → Prop
  | .char c => readsOne text (· = c)
  | .dot => readsOne text fun c => c ≠ 10 && c ≠ 13
  | .charClass negated items => readsOne text fun c => items.any (ClassItem.reads c) != negated
  | .escape e => readsOne text (escapeReads e)
  | .group _ e => e.relates
  | .anchorStart => staysAt multiline text .lineStart
  | .anchorEnd => staysAt multiline text .lineEnd
  | .wordBoundary => staysAt multiline text .wordBoundary
  | .look behind negative e => fun p q =>
    ((∃ r, if behind then e.relates r p else e.relates p r) ↔ negative = false) ∧ p = q

def Factor.relates : Factor → ℕ → ℕ → Prop
  | .plain a => a.relates
  | .repeated a q _ => q.relates a.relates

def Term.relates : Term → ℕ → ℕ → Prop
  | .one f => f.relates
  | .more f t => Relation.Comp f.relates t.relates

def Expr.relates : Expr → ℕ → ℕ → Prop
  | .one t => t.relates
  | .more t e => fun p q => t.relates p q ∨ e.relates p q

end

end Relates

variable {multiline : Bool} {text : Bytes} {p q : ℕ}

def readsIn (multiline : Bool) (text : Bytes) (l : Language Letter) (p q : ℕ) : Prop :=
  ∃ w ∈ l, Reads multiline text p w q

theorem readsIn_one (p q : ℕ) : readsIn multiline text 1 p q ↔ p = q := by
  constructor
  · rintro ⟨w, hw, hr⟩
    obtain rfl := (Language.mem_one w).mp hw
    cases hr
    rfl
  · rintro rfl
    exact ⟨[], Language.nil_mem_one, .nil⟩

theorem readsIn_add (l l' : Language Letter) (p q : ℕ) : readsIn multiline text (l + l') p q ↔
      readsIn multiline text l p q ∨ readsIn multiline text l' p q := by
  constructor
  · rintro ⟨w, hw | hw, hr⟩
    · exact .inl ⟨w, hw, hr⟩
    · exact .inr ⟨w, hw, hr⟩
  · rintro (⟨w, hw, hr⟩ | ⟨w, hw, hr⟩)
    · exact ⟨w, .inl hw, hr⟩
    · exact ⟨w, .inr hw, hr⟩

theorem readsIn_mul (l l' : Language Letter) : readsIn multiline text (l * l') =
    Relation.Comp (readsIn multiline text l) (readsIn multiline text l') := by
  funext p q
  refine propext ⟨?_, ?_⟩
  · rintro ⟨w, hw, hr⟩
    obtain ⟨u, hu, v, hv, rfl⟩ := Language.mem_mul.mp hw
    obtain ⟨i, hu', hv'⟩ := reads_append.mp hr
    exact ⟨i, ⟨u, hu, hu'⟩, v, hv, hv'⟩
  · rintro ⟨i, ⟨u, hu, hu'⟩, v, hv, hv'⟩
    exact ⟨u ++ v, Language.append_mem_mul hu hv, reads_append.mpr ⟨i, hu', hv'⟩⟩

theorem readsIn_kstar (l : Language Letter) : readsIn multiline text (l∗) =
    Relation.ReflTransGen (readsIn multiline text l) := by
  funext p q
  refine propext ⟨?_, fun h => ?_⟩
  · rintro ⟨w, hw, hr⟩
    obtain ⟨L, rfl, hL⟩ := Language.mem_kstar.mp hw
    induction L generalizing p with
    | nil =>
      cases hr
      exact .refl
    | cons v L ih =>
      rw [List.flatten_cons] at hr
      obtain ⟨i, hv, hrest⟩ := reads_append.mp hr
      exact .head ⟨v, hL v (List.mem_cons_self ..), hv⟩
        (ih i (fun y hy => hL y (List.mem_cons_of_mem v hy))
          (Language.join_mem_kstar fun y hy => hL y (List.mem_cons_of_mem v hy)) hrest)
  · induction h with
    | refl => exact ⟨[], Language.nil_mem_kstar l, .nil⟩
    | tail _ hstep ih =>
      obtain ⟨u, hu, hu'⟩ := ih
      obtain ⟨v, hv, hv'⟩ := hstep
      have hmore : l∗ * l ≤ l∗ := kstar_mul_le_kstar
      exact ⟨u ++ v, hmore (Language.append_mem_mul hu hv), reads_append.mpr ⟨_, hu', hv'⟩⟩

theorem readsIn_spelled (l : Language UInt8) : readsIn multiline text (spelled l) p q ↔
    ∃ w ∈ l, w <+: text.drop p ∧ q = p + w.length := by
  simp only [readsIn, exists_spelled, reads_spelled]

theorem readsIn_one_char (cond : UInt8 → Bool) :
    readsIn multiline text (spelled (oneOf cond)) = readsOne text cond := by
  funext p q
  refine propext ?_
  rw [readsIn, exists_spelled]
  constructor
  · rintro ⟨_, ⟨c, hc, rfl⟩, hr⟩
    cases hr with
    | read hget hr =>
      cases hr
      exact ⟨c, hget, hc, rfl⟩
  · rintro ⟨c, hget, hc, rfl⟩
    exact ⟨[c], ⟨c, hc, rfl⟩, .read hget .nil⟩

theorem readsIn_asking (t : Test) :
    readsIn multiline text (asking t) = staysAt multiline text t := by
  funext p q
  refine propext ⟨?_, ?_⟩
  · rintro ⟨_, ⟨a, rfl, rfl⟩, hr⟩
    cases hr with
    | pass ht hr =>
      cases hr
      exact ⟨ht, rfl⟩
  · rintro ⟨ht, rfl⟩
    exact ⟨[.pass t], ⟨_, rfl, rfl⟩, .pass ht .nil⟩

theorem bodyAt_iff (multiline : Bool) (l : Language UInt8) (behind : Bool) :
    BodyAt text p l behind ↔ ∃ r, if behind then readsIn multiline text (spelled l) r p
      else readsIn multiline text (spelled l) p r := by
  simp only [readsIn_spelled, BodyAt]
  cases behind with
  | false =>
    simp only [Bool.false_eq_true, if_false]
    constructor
    · rintro ⟨w, hw, hpre⟩
      exact ⟨_, w, hw, hpre, rfl⟩
    · rintro ⟨_, w, hw, hpre, -⟩
      exact ⟨w, hw, hpre⟩
  | true =>
    simp only [if_true]
    constructor
    · rintro ⟨w, hw, i, hi, hpre⟩
      exact ⟨i, w, hw, hpre, hi.symm⟩
    · rintro ⟨i, w, hw, hpre, hi⟩
      exact ⟨w, hw, i, hi.symm, hpre⟩

theorem Quantifier.relates_iff {k : Quantifier} (hk : k.Braceless) (l : Language Letter) :
    k.relates (readsIn multiline text l) = readsIn multiline text (k.lang l) := by
  cases k with
  | star => exact (readsIn_kstar l).symm
  | plus =>
    rw [Quantifier.lang, readsIn_mul, readsIn_kstar]
    funext p q
    exact propext Relation.TransGen.head'_iff
  | optional =>
    funext p q
    refine propext ?_
    rw [Quantifier.lang, readsIn_add, readsIn_one, Quantifier.relates,
      Relation.reflGen_iff, or_comm,
      eq_comm]
  | _ => exact hk.elim

mutual

theorem Atom.relates_eq (a : Atom) (hq : a.All Quantifier.Braceless) (hflat : a.Flat) :
    a.relates multiline text = readsIn multiline text a.words := by
  match a with
  | .char c => exact (readsIn_one_char _).symm
  | .dot => exact (readsIn_one_char _).symm
  | .charClass negated items => exact (readsIn_one_char _).symm
  | .escape e => exact (readsIn_one_char _).symm
  | .group capturing e => exact e.relates_eq hq hflat
  | .anchorStart => exact (readsIn_asking _).symm
  | .anchorEnd => exact (readsIn_asking _).symm
  | .wordBoundary => exact (readsIn_asking _).symm
  | .look behind negative e =>
    have hbody := e.relates_eq hq (Expr.Plain.flat hflat.1)
    rw [e.words_plain hflat.1 hflat.2] at hbody
    rw [Atom.words, readsIn_asking]
    funext p q
    simp only [Atom.relates, staysAt, Test.Holds, hbody, bodyAt_iff multiline]

theorem Factor.relates_eq (f : Factor) (hq : f.All Quantifier.Braceless) (hflat : f.Flat) :
    f.relates multiline text = readsIn multiline text f.words := by
  match f with
  | .plain a => exact a.relates_eq hq hflat
  | .repeated a k nonGreedy =>
    rw [Factor.relates, Factor.words, a.relates_eq hq.1 hflat, Quantifier.relates_iff hq.2]

theorem Term.relates_eq (t : Term) (hq : t.All Quantifier.Braceless) (hflat : t.Flat) :
    t.relates multiline text = readsIn multiline text t.words := by
  match t with
  | .one f => exact f.relates_eq hq hflat
  | .more f t =>
    rw [Term.relates, Term.words, f.relates_eq hq.1 hflat.1, t.relates_eq hq.2 hflat.2, readsIn_mul]

theorem Expr.relates_eq (e : Expr) (hq : e.All Quantifier.Braceless) (hflat : e.Flat) :
    e.relates multiline text = readsIn multiline text e.words := by
  match e with
  | .one t => exact t.relates_eq hq hflat
  | .more t e =>
    funext p q
    rw [Expr.relates, t.relates_eq hq.1 hflat.1, e.relates_eq hq.2 hflat.2]
    exact propext (readsIn_add ..).symm

end

/-- A pattern without counts, whose assertions have plain bodies, and in which no escaped backslash
is followed by a character. -/
structure Expr.Positional (e : Expr) : Prop where
  ok : e.Ok
  braceless : e.All Quantifier.Braceless
  flat : e.Flat
  slash : e.SlashOk true

mutual

theorem Atom.All.mono {P Q : Quantifier → Prop} (h : ∀ q, P q → Q q) :
    ∀ {a : Atom}, a.All P → a.All Q
  | .char _, _ | .dot, _ | .charClass _ _, _ | .escape _, _ | .anchorStart, _ | .anchorEnd, _
  | .wordBoundary, _ => trivial
  | .group _ _, ha | .look _ _ _, ha => Expr.All.mono h ha

theorem Factor.All.mono {P Q : Quantifier → Prop} (h : ∀ q, P q → Q q) :
    ∀ {f : Factor}, f.All P → f.All Q
  | .plain _, hf => Atom.All.mono h hf
  | .repeated _ _ _, hf => ⟨Atom.All.mono h hf.1, h _ hf.2⟩

theorem Term.All.mono {P Q : Quantifier → Prop} (h : ∀ q, P q → Q q) :
    ∀ {t : Term}, t.All P → t.All Q
  | .one _, ht => Factor.All.mono h ht
  | .more _ _, ht => ⟨Factor.All.mono h ht.1, Term.All.mono h ht.2⟩

theorem Expr.All.mono {P Q : Quantifier → Prop} (h : ∀ q, P q → Q q) :
    ∀ {e : Expr}, e.All P → e.All Q
  | .one _, he => Term.All.mono h he
  | .more _ _, he => ⟨Term.All.mono h he.1, Expr.All.mono h he.2⟩

end

/-- A text is matched when a word of the pattern is read from its front to its end. -/
theorem compile_matches {e : Expr} (he : e.Positional) (multiline : Bool) {text : Bytes}
    (hlen : text.length + 1 < 2 ^ 32) :
    ∃ re, compile e.text (lineFlags multiline) = some (some re) ∧
      (regexMatch re text = true ↔ readsIn multiline text e.words 0 text.length) := by
  obtain ⟨re, bodies, S, hcompile, hflags, hready, hwhole⟩ := compile_tree he.ok
    (he.braceless.mono fun _ h => h.fits) he.flat he.slash multiline
  refine ⟨re, hcompile, ?_⟩
  rw [e.meaning_lang he.braceless] at hwhole
  rw [regexMatch_iff hready hwhole (by rw [hflags]; rfl) hlen, hflags]
  rfl

/-- A text is matched when the pattern relates its two ends. -/
theorem match_iff_relates (e : Expr) (he : e.Positional) (multiline : Bool) (text : Bytes)
    (hlen : text.length < 2 ^ 31) : ∃ re, compile e.text (lineFlags multiline) = some (some re) ∧
      (regexMatch re text = true ↔ e.relates multiline text 0 text.length) := by
  rw [e.relates_eq he.braceless he.flat]
  exact compile_matches he multiline (by omega)

def anchored : Expr :=
  .one (.more (.plain .anchorStart)
    (.more (.plain (.look false false (.one (.one (.plain (.char 97))))))
    (.more (.repeated (.char 97) .plus false) (.more (.plain .wordBoundary)
      (.one (.plain .anchorEnd))))))

theorem anchored_positional : anchored.Positional where
  ok := ⟨trivial, rfl, ⟨rfl, trivial⟩, trivial, trivial⟩
  braceless := ⟨trivial, trivial, ⟨trivial, trivial⟩, trivial, trivial⟩
  flat := ⟨trivial, ⟨trivial, trivial⟩, trivial, trivial, trivial⟩
  slash := ⟨trivial, trivial, trivial, trivial, trivial⟩

theorem anchored_matches : ∃ re, compile anchored.text (lineFlags true) = some (some re) ∧
    (regexMatch re [97, 97] = true ↔ anchored.relates true [97, 97] 0 2) :=
  match_iff_relates anchored anchored_positional true [97, 97] (by decide)

end Voxlib.Regex
