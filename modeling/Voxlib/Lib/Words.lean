import Mathlib.Tactic

/-!
# Linked lists in a memory of words

Nodes hold the address of the next one, and may hold that of the node before. The address 0 is
none.
-/

namespace Voxlib.Words

abbrev Mem := ℕ → ℕ

def wr (m : Mem) (a v : ℕ) : Mem := fun x => if x = a then v else m x

@[simp] theorem wr_same (m : Mem) (a v : ℕ) : wr m a v a = v := if_pos rfl

theorem wr_other (m : Mem) {a b : ℕ} (h : b ≠ a) (v : ℕ) : wr m a v b = m b := if_neg h

theorem wr_notMem (m : Mem) {a b : ℕ} {l : List ℕ} (ha : a ∉ l) (hb : b ∈ l) (v : ℕ) :
    wr m a v b = m b := by
  refine wr_other m ?_ v
  rintro rfl
  exact ha hb

def Seg (m : Mem) : (h : ℕ) → List ℕ → (t : ℕ) → Prop
  | h, [], t => h = t
  | h, a :: l, t => h = a ∧ a ≠ 0 ∧ Seg m (m a) l t

abbrev Chain (m : Mem) (h : ℕ) (l : List ℕ) : Prop := Seg m h l 0

variable {m m' : Mem} {h t : ℕ} {l front back : List ℕ}

theorem Seg.ne_zero (hs : Seg m h l t) {a : ℕ} (ha : a ∈ l) : a ≠ 0 := by
  induction l generalizing h with
  | nil => simp at ha
  | cons b l ih =>
    obtain ⟨-, hb, hrest⟩ := hs
    rcases List.mem_cons.mp ha with rfl | ha
    · exact hb
    · exact ih hrest ha

theorem Seg.frame (hs : Seg m h l t) (hsame : ∀ a ∈ l, m' a = m a) : Seg m' h l t := by
  induction l generalizing h with
  | nil => exact hs
  | cons b l ih =>
    obtain ⟨hh, hb, hrest⟩ := hs
    refine ⟨hh, hb, ih ?_ fun a ha => hsame a (List.mem_cons_of_mem b ha)⟩
    rw [hsame b List.mem_cons_self]
    exact hrest

theorem seg_append : Seg m h (front ++ back) t ↔ ∃ mid, Seg m h front mid ∧ Seg m mid back t := by
  induction front generalizing h with
  | nil => simp [Seg]
  | cons a front ih =>
    simp only [List.cons_append, Seg, ih]
    constructor
    · rintro ⟨hh, ha, mid, hfront, hback⟩
      exact ⟨mid, ⟨hh, ha, hfront⟩, hback⟩
    · rintro ⟨mid, ⟨hh, ha, hfront⟩, hback⟩
      exact ⟨hh, ha, mid, hfront, hback⟩

theorem Seg.push (hs : Seg m h l t) {a : ℕ} (ha : a ≠ 0) (hnew : a ∉ l) :
    Seg (wr m a h) a (a :: l) t := by
  refine ⟨rfl, ha, ?_⟩
  rw [wr_same]
  exact hs.frame fun b hb => wr_notMem m hnew hb h

theorem Seg.redirect {q t' : ℕ} (hs : Seg m h (front ++ [q]) t) (hq : q ∉ front) :
    Seg (wr m q t') h (front ++ [q]) t' := by
  obtain ⟨mid, hfront, hlast⟩ := seg_append.mp hs
  refine seg_append.mpr ⟨mid, hfront.frame fun b hb => wr_notMem m hq hb t',
    hlast.1, hlast.2.1, ?_⟩
  exact wr_same m q t'

theorem Seg.bypass {q a : ℕ} (hs : Seg m h (front ++ [q] ++ a :: back) t) (hq : q ∉ front)
    (hback : q ∉ back) : Seg (wr m q (m a)) h (front ++ [q] ++ back) t := by
  obtain ⟨mid, hfront, hrest⟩ := seg_append.mp hs
  refine seg_append.mpr ⟨m a, hfront.redirect hq, ?_⟩
  exact hrest.2.2.frame fun b hb => wr_notMem m hback hb _

/- Each node holds the address of the one before it; the first one holds `p`. -/
def Prevs (m : Mem) (off : ℕ) : (p : ℕ) → List ℕ → Prop
  | _, [] => True
  | p, a :: l => m (a + off) = p ∧ Prevs m off a l

variable {off p : ℕ}

theorem Prevs.frame (hp : Prevs m off p l) (hsame : ∀ a ∈ l, m' (a + off) = m (a + off)) :
    Prevs m' off p l := by
  induction l generalizing p with
  | nil => trivial
  | cons b l ih =>
    obtain ⟨hb, hrest⟩ := hp
    refine ⟨?_, ih hrest fun a ha => hsame a (List.mem_cons_of_mem b ha)⟩
    rw [hsame b List.mem_cons_self]
    exact hb

theorem prevs_append : Prevs m off p (front ++ back) ↔
      Prevs m off p front ∧ Prevs m off (front.getLast?.getD p) back := by
  induction front generalizing p with
  | nil => simp [Prevs]
  | cons a front ih =>
    have hlast : (a :: front).getLast?.getD p = front.getLast?.getD a := by
      cases front with
      | nil => rfl
      | cons b front => simp [List.getLast?_cons]
    simp only [List.cons_append, Prevs, ih, hlast, and_assoc]

theorem Prevs.bypass {a b : ℕ} (hp : Prevs m off p (front ++ a :: b :: back)) (hb : b ∉ front)
    (hback : b ∉ back) : Prevs (wr m (b + off) (m (a + off))) off p (front ++ b :: back) := by
  obtain ⟨hfront, ha, -, hrest⟩ := prevs_append.mp hp
  have hne : ∀ {x : ℕ} {l : List ℕ}, x ∈ l → b ∉ l → x + off ≠ b + off := by
    intro x l hx hb heq
    exact hb (Nat.add_right_cancel heq ▸ hx)
  refine prevs_append.mpr ⟨hfront.frame fun x hx => wr_other m (hne hx hb) _, ?_, ?_⟩
  · rw [wr_same, ha]
  · exact hrest.frame fun x hx => wr_other m (hne hx hback) _

end Voxlib.Words
