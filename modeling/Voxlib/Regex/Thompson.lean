import Voxlib.Regex.Fragments

/-!
# The construction without counts
-/

namespace Voxlib.Regex
open CStr Automaton
open scoped Computability

def Heap.addSplit (h : Heap) : Heap := (createNfaState h .split).2

variable {bodies : Bodies} {tests : Bool} {h k r : Heap} {frag : Fragment} {m : Meaning} {p q : ℕ}
  {A : Set ℕ} {n : ℕ}

@[simp] theorem length_addSplit (h : Heap) : h.addSplit.length = h.length + 1 := length_create ..

theorem node_addSplit_old (hq : q < h.length) : h.addSplit.node q = h.node q :=
  node_create_old _ hq

theorem node_addSplit_new (hq : q = h.length) : h.addSplit.node q = Node.open :=
  node_create_new h _ hq

theorem Grown.addSplit (hg : Grown bodies tests h k A n) : Grown bodies tests h k.addSplit A n :=
  hg.create (.inl trivial) fun _ ht => absurd ht (Option.some_ne_none _).symm

attribute [simp] node_setOut1_same node_setOut1_ne node_setOut2_same node_setOut2_ne
  node_setOuts_same node_setOuts_ne node_choose_same node_choose_ne node_addSplit_old
  node_addSplit_new

def Meaning.atom (l : Language Letter) : Meaning := ⟨l, l, true, false⟩

def Meaning.group (capturing : Bool) (m : Meaning) : Meaning :=
  if capturing then ⟨m.lang, m.lang, m.touch, false⟩ else m

def Meaning.cat (m n : Meaning) : Meaning :=
  ⟨m.lang * n.lang, if m.touch then n.lang else m.front * n.lang, m.touch && n.touch, false⟩

def Meaning.alt (m n : Meaning) : Meaning := ⟨m.lang + n.lang, m.lang, false, false⟩

def Meaning.star (nonGreedy : Bool) (m : Meaning) : Meaning :=
  ⟨m.lang∗, if nonGreedy then 1 else m.lang * m.lang∗, nonGreedy, false⟩

def Meaning.plus (m : Meaning) : Meaning := ⟨m.lang * m.lang∗, m.lang * m.lang∗, false, false⟩

def Meaning.optional (nonGreedy : Bool) (m : Meaning) : Meaning :=
  ⟨m.lang + 1, if nonGreedy then 1 else m.lang, nonGreedy, false⟩

theorem words_open {t : ℕ} (hq : r.node q = Node.open) (hne : q ≠ t) :
    words (nfa bodies r) q t = 0 :=
  words_stuck_ne (step_open hq) hne

theorem words_open_self (bodies : Bodies) (hq : r.node q = Node.open) :
    words (nfa bodies r) q q = 1 :=
  words_stuck (step_open hq)

theorem wordsFrom_some (h : Heap) (q t : ℕ) : wordsFrom bodies h (some q) t =
    words (nfa bodies h) q t := rfl

theorem words_forward {q t u : ℕ} (hq : r.node q = ⟨.split, some t, none, none⟩) (hne : q ≠ u) :
    words (nfa bodies r) q u = words (nfa bodies r) t u := by
  rw [words_split hne (by rw [hq]), hq]
  exact add_zero _

theorem Built.around {m' : Meaning} {a b : Option ℕ} {s t : ℕ} (hgrown : Grown bodies tests h r A n)
    (hs : Own A n r s) (ht : Own A n r t) (hne : s ≠ t) (hsplit : r.node s = ⟨.split, a, b, none⟩)
    (hopen : r.node t = Node.open)
    (hlang : wordsFrom bodies r a t + wordsFrom bodies r b t = m'.lang)
    (hfront : wordsFrom bodies r a t = m'.front)
    (hdirect : m'.direct = true ↔ a = some t) (htouch : m'.touch = false) :
    Built bodies tests h r ⟨s, t⟩ m' where
  region := ⟨_, hgrown.settle, hs, ht⟩
  last_open := hopen
  lang := by rw [words_split hne (by rw [hsplit]), hsplit, hlang]
  front := by
    rw [hsplit]
    exact (one_mul _).trans hfront
  direct := by
    rw [hsplit]
    exact hdirect
  touch := by
    rw [htouch]
    simp [hne]

theorem Built.repeats {a b c d : Option ℕ} (hb : Built bodies tests h k frag m)
    (hr : Rewired h k r frag.last)
    (hsplit : r.node k.length = ⟨.split, a, b, none⟩) (hopen : r.node (k.length + 1) = Node.open)
    (hlast : r.node frag.last = ⟨.split, c, d, none⟩)
    (hsplits : ∀ q, a = some q ∨ b = some q → q = frag.start ∨ q = k.length + 1)
    (hstart : a = some frag.start ∨ b = some frag.start)
    (hlasts : ∀ q, c = some q ∨ d = some q ↔ q = k.length ∨ q = k.length + 1) :
    words (nfa bodies r) frag.last (k.length + 1) = m.lang∗ ∧
      words (nfa bodies r) frag.start (k.length + 1) = m.lang * m.lang∗ := by
  have hout : ¬ (h.length ≤ k.length + 1 ∧ k.length + 1 < k.length) := by omega
  have hstep (q : ℕ) (hq : q = k.length ∨ q = k.length + 1) :
      q ∈ (nfa bodies r).step frag.last none := by
    rw [mem_step_none, hlast]
    exact ⟨rfl, (hlasts q).mpr hq⟩
  have hloop : words (nfa bodies r) frag.last (k.length + 1) = m.lang∗ := by
    refine hb.loop hr hout (j := k.length) (by omega) hopen (by rw [hlast]) (by rw [hsplit]) ?_ ?_
      (hstep _ (.inr rfl)) (.inr ⟨hstep _ (.inl rfl), ?_⟩)
    · intro q hq
      rw [hlast] at hq
      have hcases := (hlasts q).mp hq
      omega
    · intro q hq
      rw [hsplit] at hq
      exact hsplits q hq
    · rw [mem_step_none, hsplit]
      exact ⟨rfl, hstart⟩
  exact ⟨hloop, by rw [hb.exit_lang hr hout, hloop]⟩

theorem Built.starred {c d : Option ℕ} (hb : Built bodies tests h k frag m) (nonGreedy : Bool)
    (hgrown : Grown bodies tests h r A k.length) (hr : Rewired h k r frag.last)
    (hlen : r.length = k.length + 2)
    (hsplit : r.node k.length = ⟨.split, some (if nonGreedy then k.length + 1 else frag.start),
      some (if nonGreedy then frag.start else k.length + 1), none⟩)
    (hopen : r.node (k.length + 1) = Node.open) (hlast : r.node frag.last = ⟨.split, c, d, none⟩)
    (hlasts : ∀ q, c = some q ∨ d = some q ↔ q = k.length ∨ q = k.length + 1) :
    Built bodies tests h r ⟨k.length, k.length + 1⟩ (m.star nonGreedy) := by
  have hstart := hb.start
  have hround : words (nfa bodies r) frag.start (k.length + 1) = m.lang * m.lang∗ := by
    refine (hb.repeats hr hsplit hopen hlast ?_ ?_ hlasts).2
    · cases nonGreedy <;> simp <;> omega
    · cases nonGreedy <;> simp
  have hself := words_open_self bodies hopen
  refine .around hgrown (own_new (by omega)) (own_new (by omega)) (by omega) hsplit hopen
    ?_ ?_ ?_ rfl
  · cases nonGreedy
    · simp only [Bool.false_eq_true, if_false, wordsFrom_some, hround, hself, Meaning.star]
      rw [add_comm, Language.one_add_self_mul_kstar_eq_kstar]
    · simp only [if_true, wordsFrom_some, hround, hself, Meaning.star]
      exact Language.one_add_self_mul_kstar_eq_kstar m.lang
  · cases nonGreedy
    · exact hround
    · exact hself
  · cases nonGreedy <;> simp [Meaning.star]; omega

theorem Grown.branched (hg : Grown bodies tests h k A k.length) {start : ℕ} (hstart : start ∈ A)
    (nonGreedy : Bool) :
    Grown bodies tests h ((k.addSplit.addSplit.setNonGreedy k.length nonGreedy).choose k.length
      nonGreedy start (k.length + 1)) A k.length :=
  (hg.addSplit.addSplit.setNonGreedy (own_new (by simp)) nonGreedy).choose (own_new (by simp))
    (own_old hstart) (own_new (by simp))

theorem applyStar_eq (k : Heap) (frag : Fragment) (nonGreedy : Bool) : applyStar k frag nonGreedy =
      (((k.addSplit.addSplit.setNonGreedy k.length nonGreedy).choose k.length nonGreedy frag.start
        k.addSplit.length).setOuts frag.last (some k.length) (some k.addSplit.length),
        ⟨k.length, k.addSplit.length⟩) := rfl

theorem star_built (hb : Built bodies tests h k frag m) (nonGreedy : Bool) :
    Built bodies tests h (applyStar k frag nonGreedy).1 (applyStar k frag nonGreedy).2
      (m.star nonGreedy) := by
  have hlast := hb.last
  rw [applyStar_eq, length_addSplit]
  obtain ⟨A, hg, hsA, hlA⟩ := hb.region
  refine hb.starred (c := some k.length) (d := some (k.length + 1)) nonGreedy
    ((hg.branched hsA nonGreedy).setOuts (own_old hlA) (own_some (own_new (by simp)))
      (own_some (own_new (by simp)))) (fun q _ hq hne => ?_) (by simp) ?_ ?_ ?_ ?_
  · simp (disch := first | omega | (simp <;> omega) | fail)
  · simp (disch := first | omega | (simp <;> omega) | fail) [Node.open]
  · simp (disch := first | omega | (simp <;> omega) | fail)
  · simp (disch := first | omega | (simp <;> omega) | fail) [hb.last_open, Node.open]
  · simp [eq_comm]

theorem applyAny_eq (k : Heap) (frag : Fragment) (nonGreedy : Bool) : applyAny k frag nonGreedy =
      ((((k.addSplit.addSplit.setNonGreedy k.length nonGreedy).choose k.length nonGreedy frag.start
        k.addSplit.length).setNonGreedy frag.last nonGreedy).choose frag.last nonGreedy k.length
        k.addSplit.length, ⟨k.length, k.addSplit.length⟩) := rfl

theorem any_built (hb : Built bodies tests h k frag m) (nonGreedy : Bool) :
    Built bodies tests h (applyAny k frag nonGreedy).1 (applyAny k frag nonGreedy).2
      (m.star nonGreedy) := by
  have hlast := hb.last
  rw [applyAny_eq, length_addSplit]
  obtain ⟨A, hg, hsA, hlA⟩ := hb.region
  refine hb.starred (c := some (if nonGreedy then k.length + 1 else k.length))
    (d := some (if nonGreedy then k.length else k.length + 1)) nonGreedy
    (((hg.branched hsA nonGreedy).setNonGreedy (own_old hlA) nonGreedy).choose (own_old hlA)
      (own_new (by simp)) (own_new (by simp)))
    (fun q _ hq hne => ?_) (by simp) ?_ ?_ ?_ ?_
  · simp (disch := first | omega | (simp <;> omega) | fail)
  · simp (disch := first | omega | (simp <;> omega) | fail) [Node.open]
  · simp (disch := first | omega | (simp <;> omega) | fail)
  · simp (disch := first | omega | (simp <;> omega) | fail) [hb.last_open, Node.open]
  · cases nonGreedy <;> simp <;> omega

theorem applyPlus_eq (k : Heap) (frag : Fragment) (nonGreedy : Bool) : applyPlus k frag nonGreedy =
      ((((k.addSplit.addSplit.setNonGreedy k.length nonGreedy).setOut1 k.length
        (some frag.start)).setNonGreedy frag.last nonGreedy).choose frag.last nonGreedy k.length
        k.addSplit.length, ⟨k.length, k.addSplit.length⟩) := rfl

theorem plus_built (hb : Built bodies tests h k frag m) (nonGreedy : Bool) :
    Built bodies tests h (applyPlus k frag nonGreedy).1 (applyPlus k frag nonGreedy).2 m.plus := by
  have hstart := hb.start
  have hlast := hb.last
  rw [applyPlus_eq, length_addSplit]
  generalize hr : (((k.addSplit.addSplit.setNonGreedy k.length nonGreedy).setOut1 k.length
    (some frag.start)).setNonGreedy frag.last nonGreedy).choose frag.last nonGreedy k.length
    (k.length + 1) = r
  have hlen : r.length = k.length + 2 := by
    rw [← hr]
    simp
  obtain ⟨A, hg, hsA, hlA⟩ := hb.region
  have hgrown : Grown bodies tests h r A k.length := by
    rw [← hr]
    exact (((hg.addSplit.addSplit.setNonGreedy (own_new (by simp)) nonGreedy).setOut1
      (own_new (by simp)) (own_some (own_old hsA))).setNonGreedy (own_old hlA) nonGreedy).choose
      (own_old hlA) (own_new (by simp)) (own_new (by simp))
  have hrewired : Rewired h k r frag.last := fun q _ hq hne => by
    rw [← hr]
    simp (disch := first | omega | (simp <;> omega) | fail)
  have hsplit : r.node k.length = ⟨.split, some frag.start, none, none⟩ := by
    rw [← hr]
    simp (disch := first | omega | (simp <;> omega) | fail) [Node.open]
  have hopen : r.node (k.length + 1) = Node.open := by
    rw [← hr]
    simp (disch := first | omega | (simp <;> omega) | fail)
  have hlastnode : r.node frag.last = ⟨.split, some (if nonGreedy then k.length + 1 else k.length),
      some (if nonGreedy then k.length else k.length + 1), none⟩ := by
    rw [← hr]
    simp (disch := first | omega | (simp <;> omega) | fail) [hb.last_open, Node.open]
  have hround : words (nfa bodies r) frag.start (k.length + 1) = m.lang * m.lang∗ := by
    refine (hb.repeats hrewired hsplit hopen hlastnode ?_ (.inl rfl) ?_).2
    · simp only [Option.some.injEq, reduceCtorEq, or_false]
      omega
    · cases nonGreedy <;> simp <;> omega
  change Built bodies tests h r ⟨k.length, k.length + 1⟩ _
  refine .around hgrown (own_new (by omega)) (own_new (by omega)) (by omega) hsplit hopen ?_
    hround ?_ rfl
  · rw [wordsFrom_some, hround]
    exact add_zero _
  · simp only [Meaning.plus, Option.some.injEq, Bool.false_eq_true, false_iff]
    omega

theorem applyOptional_eq (k : Heap) (frag : Fragment) (nonGreedy : Bool) :
    applyOptional k frag nonGreedy =
      (((k.addSplit.addSplit.setNonGreedy k.length nonGreedy).choose k.length nonGreedy frag.start
        k.addSplit.length).setOut1 frag.last (some k.addSplit.length),
        ⟨k.length, k.addSplit.length⟩) := rfl

theorem optional_built (hb : Built bodies tests h k frag m) (nonGreedy : Bool) :
    Built bodies tests h (applyOptional k frag nonGreedy).1 (applyOptional k frag nonGreedy).2
      (m.optional nonGreedy) := by
  have hstart := hb.start
  have hlast := hb.last
  obtain ⟨A, hg, hsA, hlA⟩ := hb.region
  have hgrown := (hg.branched hsA nonGreedy).setOut1 (own_old hlA)
    (own_some (t := k.length + 1) (own_new (by simp)))
  rw [applyOptional_eq, length_addSplit]
  generalize hr : ((k.addSplit.addSplit.setNonGreedy k.length nonGreedy).choose k.length nonGreedy
    frag.start (k.length + 1)).setOut1 frag.last (some (k.length + 1)) = r at hgrown ⊢
  have hlen : r.length = k.length + 2 := by
    rw [← hr]
    simp
  have hrewired : Rewired h k r frag.last := fun q _ hq hne => by
    rw [← hr]
    simp (disch := first | omega | (simp <;> omega) | fail)
  have hsplit : r.node k.length = ⟨.split, some (if nonGreedy then k.length + 1 else frag.start),
      some (if nonGreedy then frag.start else k.length + 1), none⟩ := by
    rw [← hr]
    simp (disch := first | omega | (simp <;> omega) | fail) [Node.open]
  have hopen : r.node (k.length + 1) = Node.open := by
    rw [← hr]
    simp (disch := first | omega | (simp <;> omega) | fail)
  have hlastnode : r.node frag.last = ⟨.split, some (k.length + 1), none, none⟩ := by
    rw [← hr]
    simp (disch := first | omega | (simp <;> omega) | fail) [hb.last_open, Node.open]
  have hself := words_open_self bodies hopen
  have hone : words (nfa bodies r) frag.start (k.length + 1) = m.lang := by
    rw [hb.exit_lang hrewired (by omega), words_forward hlastnode (by omega), hself, mul_one]
  change Built bodies tests h r ⟨k.length, k.length + 1⟩ _
  refine .around hgrown (own_new (by omega)) (own_new (by omega)) (by omega) hsplit hopen
    ?_ ?_ ?_ rfl
  · cases nonGreedy
    · simp only [Bool.false_eq_true, if_false, wordsFrom_some, hone, hself, Meaning.optional]
    · simp only [if_true, wordsFrom_some, hone, hself, Meaning.optional]
      exact add_comm 1 m.lang
  · cases nonGreedy
    · exact hone
    · exact hself
  · cases nonGreedy <;> simp [Meaning.optional]; omega

theorem singleState_eq (h : Heap) (type : NfaStateType) :
    singleState h type = ((createNfaState h type).2.addSplit.setOut1 h.length
      (some (createNfaState h type).2.length), ⟨h.length, (createNfaState h type).2.length⟩) := rfl

/-- A state with one step; the body of an assertion is settled by then. -/
theorem atom_built (hg : Grown bodies tests h k A k.length) {type : NfaStateType}
    (hfits : type.Fits tests) (htype : type ≠ .split) (hbody : ∀ t, type.body = some t →
      (h.length ≤ t ∧ t < k.length) ∧ Settled bodies k h.length k.length A t) :
    Built bodies tests h (singleState k type).1 (singleState k type).2
      (.atom (type.via bodies)) := by
  have hgrown := (hg.create hfits hbody).addSplit.setOut1 (own_new (q := k.length) (by simp))
    (own_some (t := k.length + 1) (own_new (by simp)))
  rw [singleState_eq, length_create]
  generalize hr : (createNfaState k type).2.addSplit.setOut1 k.length (some (k.length + 1)) = r
    at hgrown ⊢
  have hlen : r.length = k.length + 2 := by
    rw [← hr]
    simp
  have hstart : r.node k.length = ⟨type, some (k.length + 1), none, none⟩ := by
    rw [← hr, node_setOut1_same _ (by simp), node_addSplit_old (by simp),
      node_create_new k type rfl]
  have hlast : r.node (k.length + 1) = Node.open := by
    rw [← hr, node_setOut1_ne _ (by omega), node_addSplit_new (by simp)]
  have hfront : type.via bodies * words (nfa bodies r) (k.length + 1) (k.length + 1) =
      type.via bodies := by
    rw [words_open_self bodies hlast, mul_one]
  refine ⟨⟨_, hgrown.settle, own_new (by dsimp only; omega), own_new (by dsimp only; omega)⟩, hlast,
    ?_, ?_, ?_, ?_⟩
  · rw [words_reading (by simp) (by rwa [hstart]), hstart]
    exact hfront
  · rw [hstart]
    exact hfront
  · rw [hstart]
    simp [Meaning.atom]
  · simp [Meaning.atom]

theorem closeGroup_eq (h : Heap) (frag : Fragment) (groupId : ℕ) : closeGroup h frag groupId =
      (((h.addSplit.setGroup h.length groupId true).setOut1 h.length (some frag.start)).setGroup
        frag.last groupId false, ⟨h.length, frag.last⟩) := rfl

theorem group_built (hb : Built bodies tests h k frag m) (groupId : ℕ) :
    Built bodies tests h (closeGroup k frag groupId).1 (closeGroup k frag groupId).2
      (m.group true) := by
  have hstart := hb.start
  have hlast := hb.last
  have hopen : k.addSplit.node k.length = Node.open := node_addSplit_new rfl
  rw [closeGroup_eq]
  generalize hr : ((k.addSplit.setGroup k.length groupId true).setOut1 k.length
    (some frag.start)).setGroup frag.last groupId false = r
  have hlen : r.length = k.length + 1 := by
    rw [← hr]
    simp
  obtain ⟨A, hg, hsA, hlA⟩ := hb.region
  have hgrown : Grown bodies tests h r A k.length := by
    rw [← hr]
    refine ((hg.addSplit.setGroup (by rw [hopen]; rfl) groupId true).setOut1 (own_new (by simp))
      (own_some (own_old hsA))).setGroup ?_ groupId false
    simp (disch := first | omega | (simp <;> omega) | fail) [hb.last_open, Node.open]
  have hold (q : ℕ) (hq : q < k.length) : r.node q = k.node q := by
    rw [← hr]
    simp (disch := first | omega | (simp <;> omega) | fail)
  have hmarker : r.node k.length = ⟨.split, some frag.start, none, none⟩ := by
    rw [← hr]
    simp (disch := first | omega | (simp <;> omega) | fail) [Node.open]
  have hlang : words (nfa bodies r) frag.start frag.last = m.lang := by
    rw [words_congr_node hb.closed (fun q hq => hold q hq.2) hstart, hb.lang]
  refine ⟨⟨_, hgrown.settle, own_new (by dsimp only; omega), own_old hlA⟩, ?_, ?_, ?_, ?_, ?_⟩
  · rw [hold _ hlast.2, hb.last_open]
  · rw [words_forward hmarker (by dsimp only; omega), hlang]
    rfl
  · rw [hmarker]
    exact (one_mul _).trans hlang
  · rw [hmarker, Option.some.injEq]
    exact hb.touch
  · simp only [Meaning.group, if_true, Bool.false_eq_true, false_iff]
    omega

theorem cat_built {frag₁ frag₂ : Fragment} {m₁ m₂ : Meaning} (hb₁ : Built bodies tests h k frag₁ m₁)
    (hb₂ : Built bodies tests k r frag₂ m₂) :
    Built bodies tests h (r.setOut1 frag₁.last (some frag₂.start)) ⟨frag₁.start, frag₂.last⟩
      (m₁.cat m₂) := by
  have hs₁ := hb₁.start
  have hl₁ := hb₁.last
  have hs₂ := hb₂.start
  have hl₂ := hb₂.last
  obtain ⟨A₁, hg₁, hsA₁, hlA₁⟩ := hb₁.region
  obtain ⟨A₂, hg₂, hsA₂, hlA₂⟩ := hb₂.region
  have hgrown := (hg₁.trans hg₂).setOut1 (own_old (.inl hlA₁))
    (own_some (t := frag₂.start) (own_old (.inr hsA₂)))
  generalize hj : r.setOut1 frag₁.last (some frag₂.start) = j at hgrown ⊢
  have hlen : j.length = r.length := by
    rw [← hj]
    exact length_setOut1 ..
  have hother (q : ℕ) (hq : q ≠ frag₁.last) : j.node q = r.node q := by
    rw [← hj, node_setOut1_ne _ hq]
  have hrewired : Rewired h k j frag₁.last := fun q _ hq hne => by
    rw [hother q hne, hb₂.same q hq]
  have hjoint : j.node frag₁.last = ⟨.split, some frag₂.start, none, none⟩ := by
    rw [← hj, node_setOut1_same _ (by omega), hb₂.same _ hl₁.2, hb₁.last_open]
    rfl
  have hsecond : words (nfa bodies j) frag₂.start frag₂.last = m₂.lang := by
    rw [words_congr_node hb₂.closed (fun q hq => hother q (by have := hq.1; omega)) hs₂, hb₂.lang]
  have hbehind : words (nfa bodies j) frag₁.last frag₂.last = m₂.lang := by
    rw [words_forward hjoint (by omega), hsecond]
  refine ⟨⟨_, hgrown.settle, own_old (.inl hsA₁), own_old (.inr hlA₂)⟩, ?_, ?_, ?_, ?_, ?_⟩
  · rw [hother _ (by dsimp only; omega), hb₂.last_open]
  · rw [hb₁.exit_lang hrewired (t := frag₂.last) (by omega), hbehind]
    rfl
  · by_cases htouch : frag₁.start = frag₁.last
    · have htrue := hb₁.touch.mpr htouch
      rw [htouch, hjoint, Meaning.cat, if_pos htrue]
      exact (one_mul _).trans hsecond
    · have hfalse : m₁.touch ≠ true := fun ht => htouch (hb₁.touch.mp ht)
      rw [hrewired _ hs₁.1 hs₁.2 htouch, hb₁.exit_front hrewired (t := frag₂.last) (by omega),
        hbehind, Meaning.cat, if_neg hfalse]
  · by_cases htouch : frag₁.start = frag₁.last
    · have htrue := hb₁.touch.mpr htouch
      rw [htouch, hjoint, Option.some.injEq, ← hb₂.touch]
      simp [Meaning.cat, htrue]
    · have hfalse : m₁.touch ≠ true := fun ht => htouch (hb₁.touch.mp ht)
      rw [hrewired _ hs₁.1 hs₁.2 htouch]
      simp only [Meaning.cat, Bool.and_eq_true, hfalse, Bool.false_eq_true, false_and, false_iff]
      intro hout
      have hbound := (hb₁.inside _ hs₁.1 hs₁.2).outs _ (.inl hout)
      omega
  · simp only [Meaning.cat, Bool.false_eq_true, false_iff]
    omega

theorem joinBranches_eq (r : Heap) (frag₁ frag₂ : Fragment) : joinBranches r frag₁ frag₂ =
      (((r.addSplit.addSplit.setOuts r.length (some frag₁.start) (some frag₂.start)).setOut1
        frag₁.last (some r.addSplit.length)).setOut1 frag₂.last (some r.addSplit.length),
        ⟨r.length, r.addSplit.length⟩) := rfl

theorem alt_built {frag₁ frag₂ : Fragment} {m₁ m₂ : Meaning} (hb₁ : Built bodies tests h k frag₁ m₁)
    (hb₂ : Built bodies tests k r frag₂ m₂) :
    Built bodies tests h (joinBranches r frag₁ frag₂).1 (joinBranches r frag₁ frag₂).2
      (m₁.alt m₂) := by
  have hs₁ := hb₁.start
  have hl₁ := hb₁.last
  have hs₂ := hb₂.start
  have hl₂ := hb₂.last
  rw [joinBranches_eq, length_addSplit]
  generalize hj : ((r.addSplit.addSplit.setOuts r.length (some frag₁.start)
    (some frag₂.start)).setOut1 frag₁.last (some (r.length + 1))).setOut1 frag₂.last
    (some (r.length + 1)) = j
  have hlen : j.length = r.length + 2 := by
    rw [← hj]
    simp
  obtain ⟨A₁, hg₁, hsA₁, hlA₁⟩ := hb₁.region
  obtain ⟨A₂, hg₂, hsA₂, hlA₂⟩ := hb₂.region
  have hgrown : Grown bodies tests h j (A₁ ∪ A₂) r.length := by
    rw [← hj]
    exact (((hg₁.trans hg₂).addSplit.addSplit.setOuts (own_new (by simp))
      (own_some (own_old (.inl hsA₁))) (own_some (own_old (.inr hsA₂)))).setOut1
      (own_old (.inl hlA₁)) (own_some (own_new (by simp)))).setOut1
      (own_old (.inr hlA₂)) (own_some (own_new (by simp)))
  have hold (q : ℕ) (hq : q < r.length) (hne₁ : q ≠ frag₁.last) (hne₂ : q ≠ frag₂.last) :
      j.node q = r.node q := by
    rw [← hj]
    simp (disch := first | omega | (simp <;> omega) | fail)
  have hsplit : j.node r.length = ⟨.split, some frag₁.start, some frag₂.start, none⟩ := by
    rw [← hj]
    simp (disch := first | omega | (simp <;> omega) | fail) [Node.open]
  have hopen : j.node (r.length + 1) = Node.open := by
    rw [← hj]
    simp (disch := first | omega | (simp <;> omega) | fail)
  have hlast₁ : j.node frag₁.last = ⟨.split, some (r.length + 1), none, none⟩ := by
    rw [← hj]
    simp (disch := first | omega | (simp <;> omega) | fail) [hb₂.same, hb₁.last_open, Node.open]
  have hlast₂ : j.node frag₂.last = ⟨.split, some (r.length + 1), none, none⟩ := by
    rw [← hj]
    simp (disch := first | omega | (simp <;> omega) | fail) [hb₂.last_open, Node.open]
  have hrewired₁ : Rewired h k j frag₁.last := fun q _ hq hne => by
    rw [hold q (by omega) hne (by omega), hb₂.same q hq]
  have hrewired₂ : Rewired k r j frag₂.last := fun q hlo hq hne => hold q hq (by omega) hne
  have hself := words_open_self bodies hopen
  have hone : words (nfa bodies j) frag₁.start (r.length + 1) = m₁.lang := by
    rw [hb₁.exit_lang hrewired₁ (by omega), words_forward hlast₁ (by omega), hself, mul_one]
  have htwo : words (nfa bodies j) frag₂.start (r.length + 1) = m₂.lang := by
    rw [hb₂.exit_lang hrewired₂ (by omega), words_forward hlast₂ (by omega), hself, mul_one]
  change Built bodies tests h j ⟨r.length, r.length + 1⟩ _
  refine .around hgrown (own_new (by omega)) (own_new (by omega)) (by omega) hsplit hopen
    ?_ hone ?_ rfl
  · rw [wordsFrom_some, wordsFrom_some, hone, htwo]
    rfl
  · simp only [Meaning.alt, Option.some.injEq, Bool.false_eq_true, false_iff]
    omega

end Voxlib.Regex
