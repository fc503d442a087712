import Voxlib.Regex.Thompson

/-!
# Counted repetition

The copies of a fragment are copies of its first and its last state.
-/

namespace Voxlib.Regex
open CStr Automaton
open scoped Computability

variable {bodies : Bodies} {tests : Bool} {h k r : Heap} {frag : Fragment} {m : Meaning}
  {A : Set ℕ} {w q : ℕ}

/- The words of `n` copies and then those of `l`: `behind` is what the last state of the original
   fragment leads to. -/
def Meaning.row (m : Meaning) (n : ℕ) (l behind : Language Letter) : Meaning :=
  let words := if m.direct then m.front ^ n * l else m.front * behind
  ⟨words, words, false, false⟩

def Meaning.lost : Meaning := ⟨0, 0, false, false⟩

def Meaning.exactly (n : ℕ) (m : Meaning) : Meaning :=
  if n = 0 then ⟨1, 0, false, true⟩ else if n ≤ 128 then m.row n 1 0 else .lost

def Meaning.atLeast (nonGreedy : Bool) (n : ℕ) (m : Meaning) : Meaning :=
  if n = 0 then m.star nonGreedy else m.row n (m.lang∗) (m.lang∗)

def powersTo (l : Language Letter) : ℕ → Language Letter
  | 0 => 1
  | n + 1 => l * powersTo l n + 1

def Meaning.between (nonGreedy : Bool) (n k : ℕ) (m : Meaning) : Meaning :=
  if k ≤ n then m.exactly n
  else if n = 0 then ⟨1, if nonGreedy then 1 else 0, nonGreedy, false⟩
  else m.row n (powersTo m.front (k - n)) 0

/- The copy of a state that leads to the last state, or to where the original leads. -/
def Node.copy (n : Node) (last newLast : ℕ) : Node :=
  ⟨n.type, if n.out1 = some last then some newLast else n.out1, none, n.id⟩

/- Copies that are not linked, from state `b` on. -/
def Copies (r : Heap) (s : Node) (last : ℕ) (b : ℕ) : ℕ → Prop
  | 0 => True
  | n + 1 => r.node b = s.copy last (b + 1) ∧ r.node (b + 1) = Node.open ∧ Copies r s last (b + 2) n

def clonesAt (b : ℕ) : ℕ → List Fragment
  | 0 => []
  | n + 1 => ⟨b, b + 1⟩ :: clonesAt (b + 2) n

def cloneStart (h : Heap) (frag : Fragment) : NfaState :=
  { h.state frag.start with
    out1 := if (h.state frag.start).out1 = some frag.last then some (h.length + 1)
      else (h.state frag.start).out1
    out2 := none }

def cloneLast (h : Heap) (frag : Fragment) : NfaState :=
  { h.state frag.last with out1 := none, out2 := none }

theorem cloneFragment_eq (h : Heap) (frag : Fragment) : cloneFragment h frag =
    (h ++ [cloneStart h frag, cloneLast h frag], ⟨h.length, h.length + 1⟩) := rfl

theorem node_clone_start (h : Heap) (frag : Fragment) :
    (cloneFragment h frag).1.node h.length = (h.node frag.start).copy frag.last (h.length + 1) :=
  congrArg NfaState.node (state_append_new [cloneStart h frag, cloneLast h frag] 0)

theorem node_clone_last (hopen : h.node frag.last = Node.open) :
    (cloneFragment h frag).1.node (h.length + 1) = Node.open := by
  have hnew : (cloneFragment h frag).1.node (h.length + 1) =
      { h.node frag.last with out1 := none, out2 := none } :=
    congrArg NfaState.node (state_append_new [cloneStart h frag, cloneLast h frag] 1)
  rw [hnew, hopen]
  rfl

theorem node_clone_old (hq : q < h.length) : (cloneFragment h frag).1.node q = h.node q :=
  node_append_old _ hq

@[simp] theorem length_clone (h : Heap) (frag : Fragment) :
    (cloneFragment h frag).1.length = h.length + 2 := by
  rw [cloneFragment_eq, List.length_append]
  rfl

theorem Grown.clone (hg : Grown bodies tests h k A w) (hstart : Own A w k frag.start)
    (hlast : Own A w k frag.last) : Grown bodies tests h (cloneFragment k frag).1 A w := by
  have hsbound := hg.bound hstart
  have hlbound := hg.bound hlast
  have hs := hg.inside frag.start hsbound.1 hsbound.2
  have hl := hg.inside frag.last hlbound.1 hlbound.2
  have hhi := hg.hi
  have hout (t : ℕ) (ht : (cloneStart k frag).out1 = some t ∨ (cloneStart k frag).out2 = some t) :
      (k.state frag.start).out1 = some t ∨ t = k.length + 1 := by
    have hout : (if (k.state frag.start).out1 = some frag.last then some (k.length + 1)
        else (k.state frag.start).out1) = some t := by
      simpa [cloneStart] using ht
    split at hout
    · simp at hout
      exact .inr hout.symm
    · exact .inl hout
  have hnone (t : ℕ) : ¬ ((cloneLast k frag).out1 = some t ∨ (cloneLast k frag).out2 = some t) := by
    simp [cloneLast]
  have hcases (s : NfaState) (hs : s ∈ [cloneStart k frag, cloneLast k frag]) :
      s = cloneStart k frag ∨ s = cloneLast k frag := by simpa using hs
  have hlen (t : ℕ) (ht : h.length ≤ t ∧ t < k.length) :
      h.length ≤ t ∧ t < k.length + [cloneStart k frag, cloneLast k frag].length := by
    simp only [List.length_cons, List.length_nil]
    omega
  rw [cloneFragment_eq]
  refine hg.append _ (fun s hs' => ?_) (fun hm s hs' hgroup => ?_) (fun s hs' t ht => ?_)
    (fun s hs' => ?_) fun s hs' t ht => ?_
  all_goals rcases hcases s hs' with rfl | rfl
  · refine ⟨hs.id, fun t ht => hlen t (hs.body t ht), fun t ht => ?_⟩
    rcases hout t ht with ht | rfl
    · exact hlen t (hs.outs t (.inl ht))
    · simp only [List.length_cons, List.length_nil]
      omega
  · exact ⟨hl.id, fun t ht => hlen t (hl.body t ht), fun t ht => absurd ht (hnone t)⟩
  · exact hm frag.start hgroup
  · exact hm frag.last hgroup
  · rcases hout t ht with ht | rfl
    · exact (hg.outs _ hstart t (.inl ht)).mono (by simp)
    · exact own_new (by simp; omega)
  · exact absurd ht (hnone t)
  · exact hg.types _ hstart
  · exact hg.types _ hlast
  · exact hg.settled _ hstart t ht
  · exact hg.settled _ hlast t ht

theorem cloneFragments_succ (h : Heap) (frag : Fragment) (n : ℕ) :
    cloneFragments h frag (n + 1) = ((cloneFragments (cloneFragment h frag).1 frag n).1,
      (cloneFragment h frag).2 :: (cloneFragments (cloneFragment h frag).1 frag n).2) := rfl

variable {s : Node} {last n : ℕ}

theorem Copies.congr {b : ℕ} (hc : Copies r s last b n) {r' : Heap}
    (hsame : ∀ q, b ≤ q → q < b + 2 * n → r'.node q = r.node q) : Copies r' s last b n := by
  induction n generalizing b with
  | zero => trivial
  | succ n ih =>
    obtain ⟨hs, hl, hc⟩ := hc
    exact ⟨by rw [hsame b (by omega) (by omega), hs],
      by rw [hsame (b + 1) (by omega) (by omega), hl],
      ih hc fun q hlo hhi => hsame q (by omega) (by omega)⟩

theorem cloneFragments_spec (hg : Grown bodies tests h k A w) (hstart : Own A w k frag.start)
    (hlast : Own A w k frag.last) (hopen : k.node frag.last = Node.open) (n : ℕ) :
    (cloneFragments k frag n).2 = clonesAt k.length n ∧
      (cloneFragments k frag n).1.length = k.length + 2 * n ∧
      (∀ q < k.length, (cloneFragments k frag n).1.node q = k.node q) ∧
      Copies (cloneFragments k frag n).1 (k.node frag.start) frag.last k.length n ∧
      Grown bodies tests h (cloneFragments k frag n).1 A w := by
  induction n generalizing k with
  | zero => exact ⟨rfl, rfl, fun _ _ => rfl, trivial, hg⟩
  | succ n ih =>
    have hlen := length_clone k frag
    have hsbound := hg.bound hstart
    have hlbound := hg.bound hlast
    obtain ⟨hlist, hlen', hsame, hcopies, hgrown⟩ := ih (hg.clone hstart hlast)
      (hstart.mono (by omega)) (hlast.mono (by omega)) (by rw [node_clone_old hlbound.2, hopen])
    rw [cloneFragments_succ]
    rw [hlen] at hlist hlen' hsame hcopies
    rw [node_clone_old hsbound.2] at hcopies
    refine ⟨by rw [hlist]; rfl, by rw [hlen']; omega, fun q hq => ?_, ⟨?_, ?_, hcopies⟩, hgrown⟩
    · rw [hsame q (by omega), node_clone_old hq]
    · rw [hsame _ (by omega), node_clone_start]
    · rw [hsame _ (by omega), node_clone_last hopen]

/- Copies from state `b` on, each of which leads to the next one; `cur` leads to the first one. -/
def Linked (r : Heap) (s : Node) (last : ℕ) : ℕ → ℕ → ℕ → Prop
  | _, _, 0 => True
  | cur, b, n + 1 => r.node cur = ⟨.split, some b, none, none⟩ ∧
    r.node b = s.copy last (b + 1) ∧ Linked r s last (b + 1) (b + 2) n

def endOf (cur b : ℕ) : ℕ → ℕ
  | 0 => cur
  | n + 1 => endOf (b + 1) (b + 2) n

theorem endOf_succ (cur b n : ℕ) : endOf cur b (n + 1) = b + 2 * n + 1 := by
  induction n generalizing cur b with
  | zero => rfl
  | succ n ih =>
    rw [endOf, ih]
    omega

theorem endOf_cases (cur b n : ℕ) :
    n = 0 ∧ endOf cur b n = cur ∨ 0 < n ∧ endOf cur b n + 1 = b + 2 * n := by
  cases n with
  | zero => exact .inl ⟨rfl, rfl⟩
  | succ n => exact .inr ⟨Nat.succ_pos n, by rw [endOf_succ]; omega⟩

theorem Linked.congr {cur b : ℕ} (hl : Linked r s last cur b n) {r' : Heap} (hcur : cur < b)
    (hsame : ∀ q, q = cur ∨ b ≤ q → q < b + 2 * n → q ≠ endOf cur b n →
      r'.node q = r.node q) : Linked r' s last cur b n := by
  induction n generalizing cur b with
  | zero => trivial
  | succ n ih =>
    have hend := endOf_succ cur b n
    obtain ⟨hc, hs, hl⟩ := hl
    exact ⟨by rw [hsame cur (.inl rfl) (by omega) (by omega), hc],
      by rw [hsame b (.inr le_rfl) (by omega) (by omega), hs],
      ih hl (by omega) fun q hq hhi hne => hsame q (.inr (by omega)) (by omega) hne⟩

theorem linkClones_cons (h : Heap) (cur : ℕ) (clone : Fragment) (clones : List Fragment) :
    linkClones h cur (clone :: clones) =
      linkClones (h.setOuts cur (some clone.start) none) clone.last clones := rfl

theorem linkClones_spec {b : ℕ} (cur : ℕ) (hg : Grown bodies tests h k A w)
    (hcopies : Copies k s last b n) (hcur : Own A w k cur) (hlt : cur < b) (hw : w ≤ b)
    (hlen : b + 2 * n ≤ k.length) (hopen : k.node cur = Node.open) :
    (linkClones k cur (clonesAt b n)).2 = endOf cur b n ∧
      (linkClones k cur (clonesAt b n)).1.length = k.length ∧
      (∀ q, q ≠ cur → q < b ∨ b + 2 * n ≤ q →
        (linkClones k cur (clonesAt b n)).1.node q = k.node q) ∧
      Linked (linkClones k cur (clonesAt b n)).1 s last cur b n ∧
      (linkClones k cur (clonesAt b n)).1.node (endOf cur b n) = Node.open ∧
      Grown bodies tests h (linkClones k cur (clonesAt b n)).1 A w := by
  induction n generalizing k cur b with
  | zero => exact ⟨rfl, rfl, fun _ _ _ => rfl, trivial, hopen, hg⟩
  | succ n ih =>
    obtain ⟨hs, hl, hcopies⟩ := hcopies
    have hset : (k.setOuts cur (some b) none).length = k.length := length_setOuts ..
    obtain ⟨hend, hlen', hsame, hlinked, hlast, hgrown⟩ := ih (k := k.setOuts cur (some b) none)
      (b + 1) (b := b + 2)
      (hg.setOuts hcur (own_some (own_new (by omega))) own_none)
      (hcopies.congr fun q hlo _ => node_setOuts_ne _ _ (by omega))
      (own_new (by omega)) (by omega) (by omega) (by omega)
      (by rw [node_setOuts_ne _ _ (by omega), hl])
    rw [clonesAt, linkClones_cons]
    refine ⟨hend, by rw [hlen', hset], fun q hne hq => ?_, ⟨?_, ?_, hlinked⟩, hlast, hgrown⟩
    · rw [hsame q (by omega) (by omega), node_setOuts_ne _ _ hne]
    · rw [hsame cur (by omega) (by omega), node_setOuts_same _ _ (by omega), hopen]
      rfl
    · rw [hsame b (by omega) (by omega), node_setOuts_ne _ _ (by omega), hs]

def copyRow (h : Heap) (frag : Fragment) (cur n : ℕ) : Heap × ℕ :=
  linkClones (cloneFragments h frag n).1 cur (cloneFragments h frag n).2

/-- From `k` to `r` the copies of a first state `s` have been linked behind `cur`. -/
structure Row (bodies : Bodies) (tests : Bool) (h k : Heap) (A : Set ℕ) (w : ℕ) (s : Node)
    (last cur n : ℕ) (r : Heap) : Prop extends Grown bodies tests h r A w where
  length : r.length = k.length + 2 * n
  old : ∀ q < k.length, q ≠ cur → r.node q = k.node q
  linked : Linked r s last cur k.length n
  last_open : r.node (endOf cur k.length n) = Node.open

theorem copyRow_spec (frag : Fragment) (cur : ℕ) (hg : Grown bodies tests h k A w)
    (hstart : Own A w k frag.start) (hlast : Own A w k frag.last)
    (hopen : k.node frag.last = Node.open) (hcur : Own A w k cur)
    (hcuropen : k.node cur = Node.open) (n : ℕ) : (copyRow k frag cur n).2 = endOf cur k.length n ∧
      Row bodies tests h k A w (k.node frag.start) frag.last cur n (copyRow k frag cur n).1 := by
  have hbound := hg.bound hcur
  obtain ⟨hlist, hlen, hsame, hcopies, hgrown⟩ := cloneFragments_spec hg hstart hlast hopen n
  obtain ⟨hend, hlen', hsame', hlinked, hlastopen, hgrown'⟩ := linkClones_spec cur hgrown hcopies
    (hcur.mono (by omega)) hbound.2 hg.hi (by omega) (by rw [hsame _ hbound.2, hcuropen])
  rw [copyRow, hlist]
  exact ⟨hend, hgrown', by rw [hlen', hlen], fun q hq hne => by
    rw [hsame' q hne (.inl hq), hsame q hq], hlinked, hlastopen⟩

theorem words_one {t : ℕ} (hq : (r.node q).out2 = none) (hne : q ≠ t) :
    words (nfa bodies r) q t = (r.node q).type.via bodies * wordsFrom bodies r
      (r.node q).out1 t := by
  by_cases hsplit : (r.node q).type = .split
  · rw [words_split hne hsplit, hq, hsplit]
    exact (add_zero _).trans (one_mul _).symm
  · exact words_reading hne hsplit

theorem Linked.words_direct {cur b t : ℕ} (hl : Linked r s last cur b n) (hs : s.out1 = some last)
    (hcur : cur < b) (ht : t < b) (hne : cur ≠ t) :
    words (nfa bodies r) cur t = s.type.via bodies ^ n * words (nfa bodies r)
      (endOf cur b n) t := by
  induction n generalizing cur b with
  | zero => exact (one_mul _).symm
  | succ n ih =>
    obtain ⟨hc, hb, hl⟩ := hl
    have hcopy : r.node b = ⟨s.type, some (b + 1), none, s.id⟩ := by
      rw [hb, Node.copy, if_pos hs]
    rw [words_forward hc hne, words_one (by rw [hcopy]) (by omega), hcopy, wordsFrom_some,
      ih hl (by omega) (by omega) (by omega), ← mul_assoc, ← pow_succ']
    rfl

theorem Built.via_front (hb : Built bodies tests h k frag m) (hdirect : m.direct = true) :
    (k.node frag.start).type.via bodies = m.front := by
  rw [← hb.front, hb.direct.mp hdirect, wordsFrom_some, words_open_self bodies
    hb.last_open, mul_one]

theorem Built.row (hb : Built bodies tests h k frag m) (hr : Rewired h k r frag.last) {cur b t : ℕ}
    (hl : Linked r (k.node frag.start) frag.last cur b n) (hn : 0 < n) (hcur : cur < b) (ht : t < b)
    (hne : cur ≠ t) (hout : ¬ (h.length ≤ t ∧ t < k.length)) : words (nfa bodies r) cur t =
      (m.row n (words (nfa bodies r) (endOf cur b n) t)
        (words (nfa bodies r) frag.last t)).lang := by
  by_cases hdirect : m.direct = true
  · have hout1 := hb.direct.mp hdirect
    rw [hl.words_direct hout1 hcur ht hne, hb.via_front hdirect, Meaning.row, if_pos hdirect]
  · have hout1 : (k.node frag.start).out1 ≠ some frag.last := fun h => hdirect (hb.direct.mpr h)
    obtain ⟨n, rfl⟩ := Nat.exists_eq_add_one_of_ne_zero (Nat.ne_of_gt hn)
    obtain ⟨hc, hs, -⟩ := hl
    have hcopy : r.node b = ⟨(k.node frag.start).type, (k.node frag.start).out1, none,
        (k.node frag.start).id⟩ := by
      rw [hs, Node.copy, if_neg hout1]
    rw [words_forward hc hne, words_one (by rw [hcopy]) (by omega), hcopy, Meaning.row,
      if_neg hdirect]
    exact hb.exit_front hr hout

theorem Linked.first {cur b : ℕ} (hl : Linked r s last cur b n) (hn : 0 < n) :
    r.node cur = ⟨.split, some b, none, none⟩ := by
  obtain ⟨n, rfl⟩ := Nat.exists_eq_add_one_of_ne_zero (Nat.ne_of_gt hn)
  exact hl.1

theorem Built.row_built (hb : Built bodies tests h k frag m)
    (hgrown : Grown bodies tests h r A k.length) (hr : Rewired h k r frag.last) {cur b t : ℕ}
    (hlinked : Linked r (k.node frag.start) frag.last cur b n) (hn : 0 < n)
    (hcur : k.length ≤ cur ∧ cur < b) (ht : k.length ≤ t ∧ t < b) (hlen : b ≤ r.length)
    (hne : cur ≠ t) (hopen : r.node t = Node.open) {l behind : Language Letter}
    (hl : m.direct = true → words (nfa bodies r) (endOf cur b n) t = l)
    (hbehind : words (nfa bodies r) frag.last t = behind) :
    Built bodies tests h r ⟨cur, t⟩ (m.row n l behind) := by
  have hfirst := hlinked.first hn
  have hwords : words (nfa bodies r) cur t = (m.row n l behind).lang := by
    rw [hb.row hr hlinked hn hcur.2 ht.2 hne (by omega), hbehind]
    by_cases hdirect : m.direct = true
    · rw [hl hdirect]
    · rw [Meaning.row, Meaning.row, if_neg hdirect, if_neg hdirect]
  have hfront : words (nfa bodies r) b t = (m.row n l behind).lang := by
    rw [← words_forward hfirst hne, hwords]
  refine .around hgrown (own_new (by omega)) (own_new (by omega)) hne hfirst hopen ?_ hfront ?_ rfl
  · rw [wordsFrom_some, hfront]
    exact add_zero _
  · simp only [Meaning.row, Bool.false_eq_true, Option.some.injEq, false_iff]
    omega

theorem Built.copies (hb : Built bodies tests h k frag m) (hsA : frag.start ∈ A)
    (hlA : frag.last ∈ A) {k₀ : Heap} (cur : ℕ) (hg : Grown bodies tests h k₀ A k.length)
    (hsame : ∀ q < k.length, k₀.node q = k.node q) (hcur : k.length ≤ cur ∧ cur < k₀.length)
    (hopen : k₀.node cur = Node.open) (n : ℕ) : (copyRow k₀ frag cur n).2 = endOf cur k₀.length n ∧
      Row bodies tests h k₀ A k.length (k.node frag.start) frag.last cur n
        (copyRow k₀ frag cur n).1 := by
  have hrow := copyRow_spec frag cur hg (own_old hsA) (own_old hlA)
    (by rw [hsame _ hb.last.2, hb.last_open]) (own_new hcur) hopen n
  rwa [hsame _ hb.start.2] at hrow

theorem nothing_built (hg : Grown bodies tests h k A w) :
    Built bodies tests h k.addSplit ⟨k.length, k.length⟩ ⟨1, 0, false, true⟩ := by
  have hhi := hg.hi
  have hopen : k.addSplit.node k.length = Node.open := node_addSplit_new rfl
  have hown : Own A w k.addSplit k.length := own_new (by simp; omega)
  refine ⟨⟨_, hg.addSplit.settle, hown, hown⟩, hopen, words_open_self bodies hopen, ?_, ?_, ?_⟩
  · rw [hopen]
    exact mul_zero _
  · simp [hopen, Node.open]
  · simp

theorem applyExactly_eq (k : Heap) (frag : Fragment) (hn : n ≤ 128) : applyExactly k frag n =
      ((copyRow k.addSplit.addSplit frag k.length n).1.setOuts
        (copyRow k.addSplit.addSplit frag k.length n).2 (some k.addSplit.length) none,
        ⟨k.length, k.addSplit.length⟩) := if_neg (Nat.not_lt.mpr hn)

theorem exactly_built (hb : Built bodies tests h k frag m) (hpos : 0 < n) (hn : n ≤ 128) :
    Built bodies tests h (applyExactly k frag n).1 (applyExactly k frag n).2 (m.row n 1 0) := by
  have hlast := hb.last
  have hlen₀ : k.addSplit.addSplit.length = k.length + 2 := by simp
  obtain ⟨A, hg, hsA, hlA⟩ := hb.region
  obtain ⟨hend, hrow⟩ := hb.copies hsA hlA k.length hg.addSplit.addSplit
    (fun q hq => by simp (disch := first | omega | (simp <;> omega) | fail)) (by omega)
    (by simp (disch := first | omega | (simp <;> omega) | fail)) n
  rw [applyExactly_eq k frag hn, length_addSplit, hend]
  generalize (copyRow k.addSplit.addSplit frag k.length n).1 = j at hrow
  have hlen := hrow.length
  have hlinked := hrow.linked
  have hjopen := hrow.last_open
  rw [hlen₀] at hlen hlinked hjopen ⊢
  have hcases := endOf_cases k.length (k.length + 2) n
  have hold (q : ℕ) (hq : q < k.length + 2) (hne : q ≠ k.length) (a : Option ℕ) :
      (j.setOuts (endOf k.length (k.length + 2) n) a none).node q =
        k.addSplit.addSplit.node q := by
    rw [node_setOuts_ne _ _ (by omega), hrow.old q (by omega) hne]
  have hopen (a : Option ℕ) : (j.setOuts (endOf k.length (k.length + 2) n) a none).node
      (k.length + 1) = Node.open := by
    rw [hold _ (by omega) (by omega)]
    simp (disch := first | omega | (simp <;> omega) | fail)
  refine hb.row_built (hrow.setOuts (own_new (by omega)) (own_some (own_new (by omega))) own_none)
    (fun q _ hq _ => ?_) (hlinked.congr (by omega) fun q _ _ hne => node_setOuts_ne _ _ hne) hpos
    (by omega) (by omega) (by simp; omega) (by omega) (hopen _) (fun _ => ?_) ?_
  · rw [hold q (by omega) (by omega)]
    simp (disch := first | omega | (simp <;> omega) | fail)
  · rw [words_forward (t := k.length + 1) ?_ (by omega), words_open_self bodies (hopen _)]
    rw [node_setOuts_same _ _ (by omega), hjopen]
    rfl
  · refine words_open ?_ (by omega)
    rw [hold _ (by omega) (by omega)]
    simp (disch := first | omega | (simp <;> omega) | fail) [hb.last_open]

theorem unlinked_built (hg : Grown bodies tests h r A w) {start : ℕ} (hs : Own A w r start)
    (hl : Own A w r last) (hne : start ≠ last) (hstart : r.node start = Node.open)
    (hlast : r.node last = Node.open) : Built bodies tests h r ⟨start, last⟩ .lost := by
  refine ⟨⟨_, hg.settle, hs, hl⟩, hlast, words_open hstart hne, ?_, ?_, ?_⟩
  · rw [hstart]
    exact mul_zero _
  · simp [hstart, Node.open, Meaning.lost]
  · simp [Meaning.lost, hne]

theorem lost_built (hg : Grown bodies tests h k A w) :
    Built bodies tests h k.addSplit.addSplit ⟨k.length, k.addSplit.length⟩ .lost := by
  have hhi := hg.hi
  rw [length_addSplit]
  refine unlinked_built hg.addSplit.addSplit (own_new (by simp; omega)) (own_new (by simp; omega))
    (by omega) ?_ ?_
  · simp (disch := first | omega | (simp <;> omega) | fail)
  · simp (disch := first | omega | (simp <;> omega) | fail)

theorem applyAtLeast_eq (k : Heap) (frag : Fragment) (nonGreedy : Bool) (hn : n ≤ 128) :
    applyAtLeast k frag n nonGreedy =
      ((((((copyRow k.addSplit.addSplit frag k.length n).1.addSplit.setOuts
        (copyRow k.addSplit.addSplit frag k.length n).2
        (some (copyRow k.addSplit.addSplit frag k.length n).1.length)
        (some k.addSplit.length)).setNonGreedy
        (copyRow k.addSplit.addSplit frag k.length n).1.length nonGreedy).choose
        (copyRow k.addSplit.addSplit frag k.length n).1.length nonGreedy frag.start
        k.addSplit.length).setNonGreedy frag.last nonGreedy).choose frag.last nonGreedy frag.start
        k.addSplit.length, ⟨k.length, k.addSplit.length⟩, true) := if_neg (Nat.not_lt.mpr hn)

theorem atLeast_built (hb : Built bodies tests h k frag m) (nonGreedy : Bool) (hpos : 0 < n)
    (hn : n ≤ 128) :
    Built bodies tests h (applyAtLeast k frag n nonGreedy).1 (applyAtLeast k frag n nonGreedy).2.1
      (m.row n (m.lang∗) (m.lang∗)) := by
  have hle := hb.le
  have hstart := hb.start
  have hlast := hb.last
  have hlen₀ : k.addSplit.addSplit.length = k.length + 2 := by simp
  obtain ⟨A, hg, hsA, hlA⟩ := hb.region
  obtain ⟨hend, hrow⟩ := hb.copies hsA hlA k.length hg.addSplit.addSplit
    (fun q hq => by simp (disch := first | omega | (simp <;> omega) | fail)) (by omega)
    (by simp (disch := first | omega | (simp <;> omega) | fail)) n
  rw [applyAtLeast_eq k frag nonGreedy hn, length_addSplit, hend]
  generalize (copyRow k.addSplit.addSplit frag k.length n).1 = j at hrow
  have hlen := hrow.length
  have hlinked := hrow.linked
  have hjopen := hrow.last_open
  rw [hlen₀] at hlen hlinked hjopen ⊢
  have hcases := endOf_cases k.length (k.length + 2) n
  generalize he : endOf k.length (k.length + 2) n = e at hcases hjopen
  have hgrown : Grown bodies tests h (((((j.addSplit.setOuts e (some j.length)
      (some (k.length + 1))).setNonGreedy j.length nonGreedy).choose j.length nonGreedy frag.start
      (k.length + 1)).setNonGreedy frag.last nonGreedy).choose frag.last nonGreedy frag.start
      (k.length + 1)) A k.length := by
    have hnew : Own A k.length j.addSplit j.length := own_new (by simp; omega)
    have hout : Own A k.length j.addSplit (k.length + 1) := own_new (by simp; omega)
    exact ((((hrow.addSplit.setOuts (own_new (by simp; omega)) (own_some hnew)
      (own_some hout)).setNonGreedy (own_length (by simp) hnew) _).choose
      (own_length (by simp) hnew) (own_old hsA) (own_length (by simp) hout)).setNonGreedy
      (own_old hlA) _).choose (own_old hlA) (own_old hsA) (own_length (by simp) hout)
  generalize hr : ((((j.addSplit.setOuts e (some j.length) (some (k.length + 1))).setNonGreedy
      j.length nonGreedy).choose j.length nonGreedy frag.start (k.length + 1)).setNonGreedy
        frag.last
      nonGreedy).choose frag.last nonGreedy frag.start (k.length + 1) = r at hgrown ⊢
  have hrlen : r.length = j.length + 1 := by
    rw [← hr]
    simp
  have hold (q : ℕ) (hq : q < j.length) (hne : q ≠ e) (hne' : q ≠ frag.last) :
      r.node q = j.node q := by
    rw [← hr]
    simp (disch := first | omega | (simp <;> omega) | fail)
  have hjold (q : ℕ) (hq : q < k.length + 2) (hne : q ≠ k.length) :
      j.node q = k.addSplit.addSplit.node q := hrow.old q (by omega) hne
  have hopen : r.node (k.length + 1) = Node.open := by
    rw [hold _ (by omega) (by omega) (by omega), hjold _ (by omega) (by omega)]
    simp (disch := first | omega | (simp <;> omega) | fail)
  have hrewired : Rewired h k r frag.last := fun q _ hq hne => by
    rw [hold _ (by omega) (by omega) hne, hjold _ (by omega) (by omega)]
    simp (disch := first | omega | (simp <;> omega) | fail)
  have hend : r.node e = ⟨.split, some j.length, some (k.length + 1), none⟩ := by
    rw [← hr]
    simp (disch := first | omega | (simp <;> omega) | fail) [hjopen, Node.open]
  have hloop : r.node j.length = ⟨.split, some (if nonGreedy then k.length + 1 else frag.start),
      some (if nonGreedy then frag.start else k.length + 1), none⟩ := by
    rw [← hr]
    simp (disch := first | omega | (simp <;> omega) | fail) [Node.open]
  have hlastnode : r.node frag.last = ⟨.split,
      some (if nonGreedy then k.length + 1 else frag.start),
      some (if nonGreedy then frag.start else k.length + 1), none⟩ := by
    rw [← hr]
    simp (disch := first | omega | (simp <;> omega) | fail)
      [hjold frag.last (by omega) (by omega), hb.last_open, Node.open]
  have hself := words_open_self bodies hopen
  have hout : ¬ (h.length ≤ k.length + 1 ∧ k.length + 1 < k.length) := by omega
  have hstar : words (nfa bodies r) frag.last (k.length + 1) = m.lang∗ := by
    refine hb.loop hrewired hout (j := j.length) (by omega) hopen (by rw [hlastnode])
      (by rw [hloop]) ?_ ?_ ?_ (.inl ?_)
    · rw [hlastnode]
      cases nonGreedy <;> simp <;> omega
    · rw [hloop]
      cases nonGreedy <;> simp <;> omega
    · rw [mem_step_none, hlastnode]
      cases nonGreedy <;> simp
    · rw [mem_step_none, hlastnode]
      cases nonGreedy <;> simp
  have hround : words (nfa bodies r) frag.start (k.length + 1) = m.lang * m.lang∗ := by
    rw [hb.exit_lang hrewired hout, hstar]
  have hbehind : words (nfa bodies r) j.length (k.length + 1) = m.lang∗ := by
    rw [words_split (by omega) (by rw [hloop]), hloop]
    cases nonGreedy
    · simp only [Bool.false_eq_true, if_false, wordsFrom_some, hround, hself]
      rw [add_comm, Language.one_add_self_mul_kstar_eq_kstar]
    · simp only [if_true, wordsFrom_some, hround, hself]
      exact Language.one_add_self_mul_kstar_eq_kstar m.lang
  refine hb.row_built hgrown hrewired (hlinked.congr (by omega) fun q hq hhi hne => ?_) hpos
    (by omega) (by omega) (by omega) (by omega) hopen (fun _ => ?_) hstar
  · exact hold q (by omega) (by omega) (by omega)
  · rw [he, words_split (by omega) (by rw [hend]), hend, wordsFrom_some, wordsFrom_some, hbehind,
      hself]
    exact add_eq_left_iff_le.mpr one_le_kstar

/- Nothing is read behind the last state of the original fragment. -/
def Dead (r : Heap) (last lo : ℕ) : Prop :=
  r.node last = Node.open ∨
    ∃ e, lo ≤ e ∧ r.node last = ⟨.split, some e, none, none⟩ ∧ r.node e = Node.open

theorem Dead.words_zero {lo t : ℕ} (hd : Dead r last lo) (ht : t < lo) (hne : last ≠ t) :
    words (nfa bodies r) last t = 0 := by
  rcases hd with hopen | ⟨e, he, hlast, hopen⟩
  · exact words_open hopen hne
  · rw [words_forward hlast hne, words_open hopen (by omega)]

theorem upToLoop_succ (frag : Fragment) (quantEnd n : ℕ) (h : Heap) (lastSplit : ℕ) :
    upToLoop frag quantEnd (n + 1) h lastSplit = upToLoop frag quantEnd n
        (((h.addSplit.setOut2 lastSplit (some h.length)).setOuts h.length (some frag.start)
          (some quantEnd)).addSplit.setOut1 frag.last (some ((h.addSplit.setOut2 lastSplit
            (some h.length)).setOuts h.length (some frag.start) (some quantEnd)).length))
        ((h.addSplit.setOut2 lastSplit (some h.length)).setOuts h.length (some frag.start)
          (some quantEnd)).length := rfl

theorem upToLoop_spec (quantEnd lastSplit lo : ℕ) (hg : Grown bodies tests h k A w)
    (hsA : frag.start ∈ A) (hlA : frag.last ∈ A) (hend : w ≤ quantEnd ∧ quantEnd < k.length)
    (hsplit : w ≤ lastSplit ∧ lastSplit < k.length) (hne : lastSplit ≠ frag.last)
    (hlo : lo ≤ k.length) (hdead : Dead k frag.last lo) (n : ℕ) :
    Grown bodies tests h (upToLoop frag quantEnd n k lastSplit) A w ∧
      k.length ≤ (upToLoop frag quantEnd n k lastSplit).length ∧
      (∀ q < k.length, q ≠ lastSplit → q ≠ frag.last →
        (upToLoop frag quantEnd n k lastSplit).node q = k.node q) ∧
      (∃ out, (upToLoop frag quantEnd n k lastSplit).node lastSplit =
        { k.node lastSplit with out2 := out }) ∧
      Dead (upToLoop frag quantEnd n k lastSplit) frag.last lo := by
  induction n generalizing k lastSplit with
  | zero => exact ⟨hg, le_rfl, fun _ _ _ _ => rfl, ⟨_, rfl⟩, hdead⟩
  | succ n ih =>
    rw [upToLoop_succ, length_setOuts, length_setOut2, length_addSplit]
    have hhi := hg.hi
    have hlast := hg.bound (own_old hlA)
    have hgrown : Grown bodies tests h (((k.addSplit.setOut2 lastSplit (some k.length)).setOuts
        k.length (some frag.start) (some quantEnd)).addSplit.setOut1 frag.last
        (some (k.length + 1))) A w :=
      (((hg.addSplit.setOut2 (own_new (by simp; omega))
        (own_some (own_new (by simp; omega)))).setOuts
        (own_new (by simp; omega)) (own_some (own_old hsA))
        (own_some (own_new (by simp; omega)))).addSplit).setOut1 (own_old hlA)
        (own_some (own_new (by simp; omega)))
    generalize hr : ((k.addSplit.setOut2 lastSplit (some k.length)).setOuts k.length
        (some frag.start) (some quantEnd)).addSplit.setOut1 frag.last (some (k.length + 1)) = r
      at hgrown ⊢
    have hlen : r.length = k.length + 2 := by
      rw [← hr]
      simp
    have hlastnode : r.node frag.last = { k.node frag.last with out1 := some (k.length + 1) } := by
      rw [← hr]
      simp (disch := first | omega | (simp <;> omega) | fail)
    have hopen : r.node (k.length + 1) = Node.open := by
      rw [← hr]
      simp (disch := first | omega | (simp <;> omega) | fail)
    have hsplitnode : r.node lastSplit = { k.node lastSplit with out2 := some k.length } := by
      rw [← hr]
      simp (disch := first | omega | (simp <;> omega) | fail)
    have hdead' : Dead r frag.last lo := by
      refine .inr ⟨k.length + 1, by omega, ?_, hopen⟩
      rcases hdead with hlastopen | ⟨e, -, hlastopen, -⟩
      · rw [hlastnode, hlastopen]
        rfl
      · rw [hlastnode, hlastopen]
    obtain ⟨hgrown', hlen', hold, -, hdead''⟩ := ih (k := r) (k.length + 1) hgrown
      (by omega) (by omega) (by omega) (by omega) hdead'
    refine ⟨hgrown', by omega, fun q hq hne₁ hne₂ => ?_, ⟨some k.length, ?_⟩, hdead''⟩
    · rw [hold q (by omega) (by omega) hne₂, ← hr]
      simp (disch := first | omega | (simp <;> omega) | fail)
    · rw [hold _ (by omega) (by omega) hne, hsplitnode]

theorem applyUpTo_eq (k : Heap) (frag : Fragment) (n : ℕ) (nonGreedy : Bool) :
    applyUpTo k frag n nonGreedy =
      (((upToLoop frag k.length (n - 1) (k.addSplit.addSplit.setOuts k.addSplit.length
        (some frag.start) (some k.length)) k.addSplit.length).setNonGreedy k.addSplit.length
        nonGreedy).choose k.addSplit.length nonGreedy frag.start k.length,
        ⟨k.addSplit.length, k.length⟩) := rfl

theorem upTo_built (hb : Built bodies tests h k frag m) (n : ℕ) (nonGreedy : Bool) :
    Built bodies tests h (applyUpTo k frag n nonGreedy).1 (applyUpTo k frag n nonGreedy).2
      ⟨1, if nonGreedy then 1 else 0, nonGreedy, false⟩ := by
  have hstart := hb.start
  have hlast := hb.last
  rw [applyUpTo_eq, length_addSplit]
  obtain ⟨A, hg, hsA, hlA⟩ := hb.region
  have hgrown : Grown bodies tests h (k.addSplit.addSplit.setOuts (k.length + 1) (some frag.start)
      (some k.length)) A k.length :=
    hg.addSplit.addSplit.setOuts (own_new (by simp)) (own_some (own_old hsA))
      (own_some (own_new (by simp)))
  have hkold (q : ℕ) (hq : q < k.length) : (k.addSplit.addSplit.setOuts (k.length + 1)
      (some frag.start) (some k.length)).node q = k.node q := by
    simp (disch := first | omega | (simp <;> omega) | fail)
  have hkend : (k.addSplit.addSplit.setOuts (k.length + 1) (some frag.start)
      (some k.length)).node k.length = Node.open := by
    simp (disch := first | omega | (simp <;> omega) | fail)
  have hksplit : (k.addSplit.addSplit.setOuts (k.length + 1) (some frag.start)
      (some k.length)).node (k.length + 1) = ⟨.split, some frag.start, some k.length, none⟩ := by
    simp (disch := first | omega | (simp <;> omega) | fail) [Node.open]
  have hklen : (k.addSplit.addSplit.setOuts (k.length + 1) (some frag.start)
      (some k.length)).length = k.length + 2 := by simp
  generalize k.addSplit.addSplit.setOuts (k.length + 1) (some frag.start) (some k.length) = j at *
  obtain ⟨hgrown', hjlen, hold, ⟨out, hsplit⟩, hdead⟩ := upToLoop_spec k.length (k.length + 1)
    (k.length + 2) hgrown hsA hlA (by omega) (by omega) (by omega) (by omega)
    (.inl (by rw [hkold _ hlast.2, hb.last_open])) (n - 1)
  generalize upToLoop frag k.length (n - 1) j (k.length + 1) = i at *
  have hgrown'' : Grown bodies tests h ((i.setNonGreedy (k.length + 1) nonGreedy).choose
      (k.length + 1) nonGreedy frag.start k.length) A k.length :=
    (hgrown'.setNonGreedy (own_new (by omega)) nonGreedy).choose (own_new (by simp; omega))
      (own_old hsA) (own_new (by simp; omega))
  generalize hr : (i.setNonGreedy (k.length + 1) nonGreedy).choose (k.length + 1) nonGreedy
    frag.start k.length = r at hgrown'' ⊢
  have hsame (q : ℕ) (hne : q ≠ k.length + 1) : r.node q = i.node q := by
    rw [← hr, node_choose_ne _ _ _ hne, node_setNonGreedy]
  have hrlen : r.length = i.length := by
    rw [← hr]
    simp
  have hrsplit : r.node (k.length + 1) = ⟨.split, some (if nonGreedy then k.length else frag.start),
      some (if nonGreedy then frag.start else k.length), none⟩ := by
    rw [← hr, node_choose_same _ _ _ (by simp; omega), node_setNonGreedy, hsplit, hksplit]
  have hopen : r.node k.length = Node.open := by
    rw [hsame _ (by omega), hold _ (by omega) (by omega) (by omega), hkend]
  have hrewired : Rewired h k r frag.last := fun q _ hq hne => by
    rw [hsame _ (by omega), hold _ (by omega) (by omega) hne, hkold q hq]
  have hdead' : Dead r frag.last (k.length + 2) := by
    rcases hdead with hlastopen | ⟨e, he, hlastnode, heopen⟩
    · exact .inl (by rw [hsame _ (by omega), hlastopen])
    · exact .inr ⟨e, he, by rw [hsame _ (by omega), hlastnode],
        by rw [hsame _ (by omega), heopen]⟩
  have hnone : words (nfa bodies r) frag.start k.length = 0 := by
    rw [hb.exit_lang hrewired (by omega), hdead'.words_zero (by omega) (by omega), mul_zero]
  have hself := words_open_self bodies hopen
  change Built bodies tests h r ⟨k.length + 1, k.length⟩ _
  refine .around hgrown'' (own_new (by omega)) (own_new (by omega)) (by omega) hrsplit hopen
    ?_ ?_ ?_ rfl
  · cases nonGreedy
    · simp only [Bool.false_eq_true, if_false, wordsFrom_some, hnone, hself, zero_add]
    · simp only [if_true, wordsFrom_some, hnone, hself, add_zero]
  · cases nonGreedy
    · exact hnone
    · exact hself
  · cases nonGreedy <;> simp; omega

def Node.choice (nonGreedy : Bool) (more done : ℕ) : Node :=
  ⟨.split, some (if nonGreedy then done else more), some (if nonGreedy then more else done), none⟩

variable {nonGreedy : Bool}

theorem words_choice {more done t : ℕ} (hq : r.node q = Node.choice nonGreedy more done)
    (hne : q ≠ t) :
    words (nfa bodies r) q t = words (nfa bodies r) more t + words (nfa bodies r) done t := by
  rw [words_split hne (by rw [hq]; rfl), hq]
  cases nonGreedy
  · rfl
  · exact add_comm _ _

theorem node_choose_open {more done : ℕ} (hq : q < k.length) (hopen : k.node q = Node.open) :
    (k.choose q nonGreedy more done).node q = Node.choice nonGreedy more done := by
  rw [node_choose_same _ _ _ hq, hopen]
  rfl

/- The copies that may be left out, from state `c` on: a copy and its choice. -/
def optionsAt (c : ℕ) : ℕ → List (ℕ × Fragment)
  | 0 => []
  | n + 1 => (c + 2, ⟨c, c + 1⟩) :: optionsAt (c + 3) n

def Options (r : Heap) (s : Node) (last finalEnd : ℕ) (nonGreedy : Bool) (c : ℕ) : ℕ → Prop
  | 0 => True
  | n + 1 => r.node c = s.copy last (c + 1) ∧ r.node (c + 1) = Node.open ∧
    r.node (c + 2) = Node.choice nonGreedy c finalEnd ∧
    Options r s last finalEnd nonGreedy (c + 3) n

/- The last one leads out, and the others to the next choice or out. -/
def Choices (r : Heap) (s : Node) (last finalEnd : ℕ) (nonGreedy : Bool) (c : ℕ) : ℕ → Prop
  | 0 => True
  | n + 1 => r.node c = s.copy last (c + 1) ∧
    r.node (c + 1) = (if n = 0 then ⟨.split, some finalEnd, none, none⟩
      else Node.choice nonGreedy (c + 5) finalEnd) ∧
    r.node (c + 2) = Node.choice nonGreedy c finalEnd ∧
    Choices r s last finalEnd nonGreedy (c + 3) n

theorem Options.congr {finalEnd c : ℕ} (ho : Options k s last finalEnd nonGreedy c n)
    (hsame : ∀ q, c ≤ q → q < c + 3 * n → r.node q = k.node q) :
    Options r s last finalEnd nonGreedy c n := by
  induction n generalizing c with
  | zero => trivial
  | succ n ih =>
    obtain ⟨hs, hl, hc, ho⟩ := ho
    exact ⟨by rw [hsame c (by omega) (by omega), hs],
      by rw [hsame (c + 1) (by omega) (by omega), hl],
      by rw [hsame (c + 2) (by omega) (by omega), hc],
      ih ho fun q hlo hhi => hsame q (by omega) (by omega)⟩

theorem optionFragments_succ (h : Heap) (frag : Fragment) (finalEnd : ℕ) (nonGreedy : Bool)
    (n : ℕ) : optionFragments h frag finalEnd nonGreedy (n + 1) =
      ((optionFragments (((cloneFragment h frag).1.addSplit.setNonGreedy
          (cloneFragment h frag).1.length nonGreedy).choose
            (cloneFragment h frag).1.length nonGreedy
          h.length finalEnd) frag finalEnd nonGreedy n).1,
        ((cloneFragment h frag).1.length, ⟨h.length, h.length + 1⟩) ::
        (optionFragments (((cloneFragment h frag).1.addSplit.setNonGreedy
          (cloneFragment h frag).1.length nonGreedy).choose
            (cloneFragment h frag).1.length nonGreedy
          h.length finalEnd) frag finalEnd nonGreedy n).2) := rfl

theorem optionFragments_spec (frag : Fragment) (finalEnd : ℕ) (nonGreedy : Bool)
    (hg : Grown bodies tests h k A w) (hsA : frag.start ∈ A) (hlA : frag.last ∈ A)
    (hopen : k.node frag.last = Node.open) (hend : w ≤ finalEnd ∧ finalEnd < k.length) (n : ℕ) :
    (optionFragments k frag finalEnd nonGreedy n).2 = optionsAt k.length n ∧
      (optionFragments k frag finalEnd nonGreedy n).1.length = k.length + 3 * n ∧
      (∀ q < k.length, (optionFragments k frag finalEnd nonGreedy n).1.node q = k.node q) ∧
      Options (optionFragments k frag finalEnd nonGreedy n).1 (k.node frag.start) frag.last finalEnd
        nonGreedy k.length n ∧
      Grown bodies tests h (optionFragments k frag finalEnd nonGreedy n).1 A w := by
  induction n generalizing k with
  | zero => exact ⟨rfl, rfl, fun _ _ => rfl, trivial, hg⟩
  | succ n ih =>
    have hhi := hg.hi
    have hstart := hg.bound (own_old hsA)
    have hlast := hg.bound (own_old hlA)
    rw [optionFragments_succ, length_clone]
    have hgrown : Grown bodies tests h
      (((cloneFragment k frag).1.addSplit.setNonGreedy (k.length + 2)
        nonGreedy).choose (k.length + 2) nonGreedy k.length finalEnd) A w :=
      ((hg.clone (own_old hsA) (own_old hlA)).addSplit.setNonGreedy (own_new (by simp; omega))
        nonGreedy).choose (own_new (by simp; omega)) (own_new (by simp; omega))
        (own_new (by simp; omega))
    have hnode (q : ℕ) (hq : q < k.length + 2) : (((cloneFragment k frag).1.addSplit.setNonGreedy
        (k.length + 2) nonGreedy).choose (k.length + 2) nonGreedy k.length finalEnd).node q =
        (cloneFragment k frag).1.node q := by
      simp (disch := first | omega | (simp <;> omega) | fail)
    have hchoice : (((cloneFragment k frag).1.addSplit.setNonGreedy (k.length + 2)
        nonGreedy).choose (k.length + 2) nonGreedy k.length finalEnd).node (k.length + 2) =
        Node.choice nonGreedy k.length finalEnd := by
      rw [node_choose_open (by simp)]
      simp (disch := first | omega | (simp <;> omega) | fail)
    have hlen : (((cloneFragment k frag).1.addSplit.setNonGreedy (k.length + 2)
        nonGreedy).choose (k.length + 2) nonGreedy k.length finalEnd).length = k.length + 3 := by
      simp
    generalize ((cloneFragment k frag).1.addSplit.setNonGreedy (k.length + 2)
        nonGreedy).choose (k.length + 2) nonGreedy k.length finalEnd = r at *
    have hold (q : ℕ) (hq : q < k.length) : r.node q = k.node q := by
      rw [hnode q (by omega), node_clone_old hq]
    obtain ⟨hlist, hlen', hsame, hoptions, hgrown'⟩ := ih hgrown
      (by rw [hold _ hlast.2, hopen]) (by omega)
    rw [hlen] at hlist hlen' hsame hoptions
    rw [hold _ hstart.2] at hoptions
    refine ⟨by rw [hlist]; rfl, by rw [hlen']; omega, fun q hq => ?_,
      ⟨?_, ?_, ?_, hoptions⟩, hgrown'⟩
    · rw [hsame q (by omega), hold q hq]
    · rw [hsame _ (by omega), hnode _ (by omega), node_clone_start]
    · rw [hsame _ (by omega), hnode _ (by omega), node_clone_last hopen]
    · rw [hsame _ (by omega), hchoice]

theorem linkOptions_one (finalEnd : ℕ) (nonGreedy : Bool) (h : Heap) (c : ℕ) :
    linkOptions finalEnd nonGreedy h (optionsAt c 1) =
      (h.setNonGreedy (c + 1) nonGreedy).setOuts (c + 1) (some finalEnd) none := rfl

theorem linkOptions_more (finalEnd : ℕ) (nonGreedy : Bool) (h : Heap) (c n : ℕ) :
    linkOptions finalEnd nonGreedy h (optionsAt c (n + 2)) =
      linkOptions finalEnd nonGreedy ((h.setNonGreedy (c + 1) nonGreedy).choose (c + 1) nonGreedy
        (c + 5) finalEnd) (optionsAt (c + 3) (n + 1)) := rfl

theorem linkOptions_spec {finalEnd c : ℕ} (n : ℕ) (hg : Grown bodies tests h k A w)
    (hoptions : Options k s last finalEnd nonGreedy c n) (hc : w ≤ c)
    (hend : w ≤ finalEnd ∧ finalEnd < c) (hlen : c + 3 * n ≤ k.length) :
    (linkOptions finalEnd nonGreedy k (optionsAt c n)).length = k.length ∧
      (∀ q < c, (linkOptions finalEnd nonGreedy k (optionsAt c n)).node q = k.node q) ∧
      Choices (linkOptions finalEnd nonGreedy k (optionsAt c n)) s last finalEnd nonGreedy c n ∧
      Grown bodies tests h (linkOptions finalEnd nonGreedy k (optionsAt c n)) A w := by
  induction n generalizing k c with
  | zero => exact ⟨rfl, fun _ _ => rfl, trivial, hg⟩
  | succ n ih =>
    obtain ⟨hs, hl, hchoice, hoptions⟩ := hoptions
    cases n with
    | zero =>
      rw [linkOptions_one]
      refine ⟨by simp, fun q hq => ?_, ⟨?_, ?_, ?_, trivial⟩, ?_⟩
      · simp (disch := first | omega | (simp <;> omega) | fail)
      · simp (disch := first | omega | (simp <;> omega) | fail) [hs]
      · simp (disch := first | omega | (simp <;> omega) | fail) [hl, Node.open]
      · simp (disch := first | omega | (simp <;> omega) | fail) [hchoice]
      · exact (hg.setNonGreedy (own_new (by omega)) nonGreedy).setOuts (own_new (by simp; omega))
          (own_some (own_new (by simp; omega))) own_none
    | succ n =>
      rw [linkOptions_more]
      have hgrown : Grown bodies tests h ((k.setNonGreedy (c + 1) nonGreedy).choose
        (c + 1) nonGreedy
          (c + 5) finalEnd) A w :=
        (hg.setNonGreedy (own_new (by omega)) nonGreedy).choose (own_new (by simp; omega))
          (own_new (by simp; omega)) (own_new (by simp; omega))
      have hnode (q : ℕ) (hq : q ≠ c + 1) : ((k.setNonGreedy (c + 1) nonGreedy).choose (c + 1)
          nonGreedy (c + 5) finalEnd).node q = k.node q := by
        simp (disch := first | omega | (simp <;> omega) | fail)
      have hnext : ((k.setNonGreedy (c + 1) nonGreedy).choose (c + 1) nonGreedy (c + 5)
          finalEnd).node (c + 1) = Node.choice nonGreedy (c + 5) finalEnd :=
        node_choose_open (by simp; omega) (by rw [node_setNonGreedy, hl])
      have hsize : ((k.setNonGreedy (c + 1) nonGreedy).choose (c + 1) nonGreedy (c + 5)
          finalEnd).length = k.length := by simp
      generalize (k.setNonGreedy (c + 1) nonGreedy).choose (c + 1) nonGreedy (c + 5) finalEnd = r
        at *
      obtain ⟨hlen', hsame, hchoices, hgrown'⟩ := ih hgrown
        (hoptions.congr fun q _ _ => hnode q (by omega)) (by omega) (by omega) (by omega)
      refine ⟨by rw [hlen', hsize], fun q hq => ?_, ⟨?_, ?_, ?_, hchoices⟩, hgrown'⟩
      · rw [hsame q (by omega), hnode q (by omega)]
      · rw [hsame _ (by omega), hnode _ (by omega), hs]
      · rw [hsame _ (by omega), hnext, if_neg (Nat.succ_ne_zero n)]
      · rw [hsame _ (by omega), hnode _ (by omega), hchoice]

theorem powersTo_add_one (l : Language Letter) (n : ℕ) : powersTo l n + 1 = powersTo l n := by
  cases n with
  | zero => exact add_idem 1
  | succ n => rw [powersTo, add_assoc, add_idem]

theorem Choices.words_powers {finalEnd c : ℕ}
    (hchoices : Choices r s last finalEnd nonGreedy c (n + 1)) (hs : s.out1 = some last)
    (hend : finalEnd < c) (hopen : r.node finalEnd = Node.open) :
    words (nfa bodies r) (c + 2) finalEnd = powersTo (s.type.via bodies) (n + 1) := by
  have hself := words_open_self bodies hopen
  induction n generalizing c with
  | zero =>
    obtain ⟨hstart, hlast, hchoice, -⟩ := hchoices
    have hcopy : r.node c = ⟨s.type, some (c + 1), none, s.id⟩ := by
      rw [hstart, Node.copy, if_pos hs]
    rw [if_pos rfl] at hlast
    rw [words_choice hchoice (by omega), words_one (by rw [hcopy]) (by omega), hcopy,
      wordsFrom_some,
      words_forward hlast (by omega), hself]
    rfl
  | succ n ih =>
    obtain ⟨hstart, hlast, hchoice, hchoices⟩ := hchoices
    have hcopy : r.node c = ⟨s.type, some (c + 1), none, s.id⟩ := by
      rw [hstart, Node.copy, if_pos hs]
    rw [if_neg (Nat.succ_ne_zero n)] at hlast
    rw [words_choice hchoice (by omega), words_one (by rw [hcopy]) (by omega), hcopy,
      wordsFrom_some,
      words_choice hlast (by omega), ih hchoices (by omega), hself,
      powersTo_add_one]
    rfl

theorem applyBetween_eq (k : Heap) (frag : Fragment) {x : ℕ} (nonGreedy : Bool) (hn : n ≤ 128)
    (hx : x - n ≤ 128) : applyBetween k frag n x nonGreedy =
      (linkOptions k.addSplit.length nonGreedy
        (((optionFragments (copyRow k.addSplit.addSplit.addSplit frag
          k.addSplit.addSplit.length n).1 frag k.addSplit.length nonGreedy (x - n)).1.setNonGreedy
          (copyRow k.addSplit.addSplit.addSplit frag k.addSplit.addSplit.length n).2
            nonGreedy).choose
          (copyRow k.addSplit.addSplit.addSplit frag k.addSplit.addSplit.length n).2 nonGreedy
          (((optionFragments (copyRow k.addSplit.addSplit.addSplit frag
            k.addSplit.addSplit.length n).1 frag k.addSplit.length nonGreedy (x - n)).2.map
            Prod.fst).headD 0) k.addSplit.length)
        (optionFragments (copyRow k.addSplit.addSplit.addSplit frag k.addSplit.addSplit.length n).1
          frag k.addSplit.length nonGreedy (x - n)).2,
        ⟨k.addSplit.addSplit.length, k.addSplit.length⟩, true) :=
  (if_neg (Nat.not_lt.mpr hn)).trans (if_neg (Nat.not_lt.mpr hx))

theorem between_built (hb : Built bodies tests h k frag m) {x : ℕ} (nonGreedy : Bool) (hpos : 0 < n)
    (hn : n ≤ 128) (hlt : n < x) (hx : x - n ≤ 128) :
    Built bodies tests h (applyBetween k frag n x nonGreedy).1
      (applyBetween k frag n x nonGreedy).2.1 (m.row n (powersTo m.front (x - n)) 0) := by
  have hstart := hb.start
  have hlast := hb.last
  have hlen₀ : k.addSplit.addSplit.addSplit.length = k.length + 3 := by simp
  have hlen₁ : k.addSplit.addSplit.length = k.length + 2 := by simp
  obtain ⟨A, hg, hsA, hlA⟩ := hb.region
  obtain ⟨hend, hrow⟩ := hb.copies hsA hlA (k.length + 2) hg.addSplit.addSplit.addSplit
    (fun q hq => by simp (disch := first | omega | (simp <;> omega) | fail)) (by omega)
    (by simp (disch := first | omega | (simp <;> omega) | fail)) n
  rw [applyBetween_eq k frag nonGreedy hn hx, length_addSplit, hlen₁, hend]
  generalize (copyRow k.addSplit.addSplit.addSplit frag (k.length + 2) n).1 = j at hrow
  have hlen := hrow.length
  have hlinked := hrow.linked
  have hjopen := hrow.last_open
  rw [hlen₀] at hlen hlinked hjopen ⊢
  have hcases := endOf_cases (k.length + 2) (k.length + 3) n
  generalize he : endOf (k.length + 2) (k.length + 3) n = e at hcases hjopen
  have hjold (q : ℕ) (hq : q < k.length + 3) (hne : q ≠ k.length + 2) :
      j.node q = k.addSplit.addSplit.addSplit.node q := hrow.old q (by omega) hne
  have hjnode (q : ℕ) (hq : q < k.length) : j.node q = k.node q := by
    rw [hjold q (by omega) (by omega)]
    simp (disch := first | omega | (simp <;> omega) | fail)
  -- the copies that may be left out
  obtain ⟨hlist, hilen, hisame, hoptions, higrown⟩ := optionFragments_spec frag
    (k.length + 1) nonGreedy
    hrow.toGrown hsA hlA (by rw [hjnode _ hlast.2, hb.last_open]) (by omega) (x - n)
  rw [hlist]
  generalize (optionFragments j frag (k.length + 1) nonGreedy (x - n)).1 = i at *
  obtain ⟨y, hy⟩ := Nat.exists_eq_add_one_of_ne_zero (Nat.sub_ne_zero_of_lt hlt)
  have hhead : ((optionsAt j.length (x - n)).map Prod.fst).headD 0 = j.length + 2 := by
    rw [hy]
    rfl
  rw [hhead]
  have hgrown : Grown bodies tests h ((i.setNonGreedy e nonGreedy).choose e nonGreedy (j.length + 2)
      (k.length + 1)) A k.length :=
    (higrown.setNonGreedy (own_new (by omega)) nonGreedy).choose (own_new (by simp; omega))
      (own_new (by simp; omega)) (own_new (by simp; omega))
  have hnode (q : ℕ) (hq : q ≠ e) : ((i.setNonGreedy e nonGreedy).choose e nonGreedy (j.length + 2)
      (k.length + 1)).node q = i.node q := by
    simp (disch := first | omega | (simp <;> omega) | fail)
  have hchoice : ((i.setNonGreedy e nonGreedy).choose e nonGreedy (j.length + 2)
      (k.length + 1)).node e = Node.choice nonGreedy (j.length + 2) (k.length + 1) :=
    node_choose_open (by simp; omega) (by rw [node_setNonGreedy, hisame e (by omega), hjopen])
  have hsize : ((i.setNonGreedy e nonGreedy).choose e nonGreedy (j.length + 2)
      (k.length + 1)).length = i.length := by simp
  generalize (i.setNonGreedy e nonGreedy).choose e nonGreedy (j.length + 2) (k.length + 1) = i' at *
  obtain ⟨hrlen, hrsame, hchoices, hrgrown⟩ := linkOptions_spec (x - n) hgrown
    (hoptions.congr fun q _ _ => hnode q (by omega)) (by omega) (by omega) (by omega)
  generalize linkOptions (k.length + 1) nonGreedy i' (optionsAt j.length (x - n)) = r at *
  have hrold (q : ℕ) (hq : q < j.length) (hne : q ≠ e) : r.node q = j.node q := by
    rw [hrsame q hq, hnode q hne, hisame q hq]
  have hopen : r.node (k.length + 1) = Node.open := by
    rw [hrold _ (by omega) (by omega), hjold _ (by omega) (by omega)]
    simp (disch := first | omega | (simp <;> omega) | fail)
  refine hb.row_built hrgrown (fun q _ hq _ => ?_) (hlinked.congr (by omega)
    fun q hq hhi hne => hrold q (by omega) (by omega)) hpos (by omega) (by omega) (by omega)
    (by omega) hopen (fun hdirect => ?_) ?_
  · rw [hrold q (by omega) (by omega), hjnode q hq]
  · have hout1 := hb.direct.mp hdirect
    rw [hjnode _ hstart.2, hy] at hchoices
    rw [he, words_choice (by rw [hrsame e (by omega), hchoice]) (by omega),
      hchoices.words_powers hout1 (by omega) hopen, words_open_self bodies hopen, hb.via_front
        hdirect, hy]
    exact powersTo_add_one _ _
  · refine words_open ?_ (by omega)
    rw [hrold _ (by omega) (by omega), hjnode _ hlast.2, hb.last_open]

end Voxlib.Regex
