import Voxlib.Lib.Wire

/-!
# Programs that read a memory by index

`Yields` bounds the places that a scan reads and says what its value is.
-/

namespace Voxlib.Reads
open CStr Wire List

section
variable {β α γ : Type*}

def Scan (β α : Type*) := (ℕ → β) → α × List ℕ

def get (i : ℕ) : Scan β β := fun mem => (mem i, [i])

def span (off n : ℕ) : Scan β (List β) := fun mem =>
  ((List.range n).map fun i => mem (off + i), (List.range n).map fun i => off + i)

def Scan.pure (a : α) : Scan β α := fun _ => (a, [])

def Scan.bind (m : Scan β α) (f : α → Scan β γ) : Scan β γ := fun mem =>
  ((f (m mem).1 mem).1, (m mem).2 ++ (f (m mem).1 mem).2)

def Scan.map (m : Scan β α) (f : α → γ) : Scan β γ := fun mem => (f (m mem).1, (m mem).2)

def Scan.bindSome (m : Scan β (Option α)) (f : α → Scan β (Option γ)) : Scan β (Option γ) :=
  m.bind fun o => match o with
    | none => .pure none
    | some a => f a

variable {mem : ℕ → β} {len : ℕ} {m : Scan β α} {P : α → Prop} {Q : γ → Prop}

/-- All places read are below `len`, and the value satisfies `P`. -/
def Yields (mem : ℕ → β) (len : ℕ) (m : Scan β α) (P : α → Prop) : Prop :=
  (∀ i ∈ (m mem).2, i < len) ∧ P (m mem).1

theorem Yields.pure {a : α} (h : P a) : Yields mem len (.pure a) P :=
  ⟨fun _ hi => absurd hi not_mem_nil, h⟩

theorem Yields.get {i : ℕ} (h : i < len) : Yields mem len (get i) (· = mem i) :=
  ⟨fun _ hj => mem_singleton.mp hj ▸ h, rfl⟩

theorem Yields.bind {f : α → Scan β γ} (hm : Yields mem len m P)
    (hf : ∀ a, P a → Yields mem len (f a) Q) : Yields mem len (m.bind f) Q := by
  obtain ⟨hread, hvalue⟩ := hf _ hm.2
  refine ⟨fun i hi => ?_, hvalue⟩
  rcases mem_append.mp hi with hi | hi
  · exact hm.1 i hi
  · exact hread i hi

theorem Yields.map {f : α → γ} (hm : Yields mem len m P) (hf : ∀ a, P a → Q (f a)) :
    Yields mem len (m.map f) Q :=
  ⟨hm.1, hf _ hm.2⟩

theorem Yields.weaken {P' : α → Prop} (hm : Yields mem len m P) (h : ∀ a, P a → P' a) :
    Yields mem len m P' :=
  ⟨hm.1, h _ hm.2⟩

theorem Yields.ite {c : Prop} [Decidable c] {m' : Scan β α} {a a' : α}
    (h : Yields mem len m (· = a)) (h' : Yields mem len m' (· = a')) :
    Yields mem len (if c then m else m') (· = if c then a else a') := by
  by_cases hc : c
  · rw [if_pos hc, if_pos hc]
    exact h
  · rw [if_neg hc, if_neg hc]
    exact h'

/-- A scan that fails where the function `g` does, and otherwise goes on with a related value. -/
theorem Yields.bindSome {α' γ' : Type*} {R : α → α' → Prop} {S : γ → γ' → Prop}
    {m : Scan β (Option α)} {f : α → Scan β (Option γ)} {o : Option α'} {g : α' → Option γ'}
    (hm : Yields mem len m (Option.Rel R · o))
    (hf : ∀ a b, o = some b → R a b → Yields mem len (f a) (Option.Rel S · (g b))) :
    Yields mem len (m.bindSome f) (Option.Rel S · (o.bind g)) := by
  refine hm.bind fun r hr => ?_
  cases hr with
  | none => exact .pure .none
  | some hab => exact hf _ _ rfl hab

theorem Yields.mapSome {α' γ' : Type*} {R : α → α' → Prop} {S : γ → γ' → Prop}
    {m : Scan β (Option α)} {f : α → γ} {o : Option α'} {g : α' → γ'}
    (hm : Yields mem len m (Option.Rel R · o)) (hf : ∀ a b, o = some b → R a b → S (f a) (g b)) :
    Yields mem len (m.map (Option.map f)) (Option.Rel S · (o.map g)) := by
  refine hm.map fun r hr => ?_
  cases hr with
  | none => exact .none
  | some hab => exact .some (hf _ _ rfl hab)

theorem rel_eq {a b : Option α} (h : Option.Rel Eq a b) : a = b := by
  cases h with
  | none => rfl
  | some h => exact congrArg some h

variable {off n : ℕ} {s d : List β}

/-- The list stands at `off`. -/
def Held (mem : ℕ → β) (off : ℕ) (s : List β) : Prop :=
  ∀ i (hi : i < s.length), mem (off + i) = s[i]

/-- The list is what is left of `len` places from `off` on. -/
structure Rest (mem : ℕ → β) (len off : ℕ) (d : List β) : Prop where
  held : Held mem off d
  ends : off + d.length = len

theorem Held.getD (h : Held mem off s) {i : ℕ} (hi : i < s.length) (b : β) :
    mem (off + i) = s.getD i b := by
  rw [h i hi, getD_eq_getElem?_getD, List.getElem?_eq_getElem hi, Option.getD_some]

theorem Held.head {a : β} (h : Held mem off (a :: s)) : mem off = a :=
  h 0 (Nat.succ_pos _)

theorem Held.drop (h : Held mem off s) (n : ℕ) : Held mem (off + n) (s.drop n) := by
  intro i hi
  rw [length_drop] at hi
  rw [getElem_drop, Nat.add_assoc]
  exact h (n + i) (by omega)

theorem Held.tail {a : β} (h : Held mem off (a :: s)) : Held mem (off + 1) s := h.drop 1

theorem Held.take (h : Held mem off s) (n : ℕ) : Held mem off (s.take n) := by
  intro i hi
  rw [length_take] at hi
  rw [getElem_take]
  exact h i (by omega)

theorem Held.range (h : Held mem off s) (hn : n ≤ s.length) :
    (List.range n).map (fun i => mem (off + i)) = s.take n := by
  refine ext_getElem (by simp [hn]) fun i hi _ => ?_
  rw [length_map, length_range] at hi
  rw [getElem_map, getElem_range, getElem_take]
  exact h i (by omega)

theorem Rest.drop (h : Rest mem len off d) (hn : n ≤ d.length) :
    Rest mem len (off + n) (d.drop n) := by
  refine ⟨h.held.drop n, ?_⟩
  have := h.ends
  rw [length_drop]
  omega

theorem Yields.span (h : Held mem off s) (hn : n ≤ s.length) (hlen : off + n ≤ len) :
    Yields mem len (span off n) (· = s.take n) := by
  refine ⟨fun i hi => ?_, h.range hn⟩
  obtain ⟨j, hj, rfl⟩ := mem_map.mp hi
  have := mem_range.mp hj
  omega

def Follows (mem : ℕ → β) (len : ℕ) (x : α × ℕ) (y : α × List β) : Prop :=
  x.1 = y.1 ∧ Rest mem len x.2 y.2

end

section
variable {mem : ℕ → UInt8} {len off : ℕ} {d s : Bytes}

def u16At (off : ℕ) : Scan UInt8 ℕ :=
  (get off).bind fun a => (get (off + 1)).map fun b => ofU16 a b

def takeU16At (off len : ℕ) : Scan UInt8 (Option (ℕ × ℕ)) :=
  if off + 2 > len then .pure none else (u16At off).map fun n => some (n, off + 2)

def takeStringAt (off len : ℕ) : Scan UInt8 (Option (Bytes × ℕ)) :=
  (takeU16At off len).bindSome fun n =>
    if n.2 + n.1 > len then .pure none else (span n.2 n.1).map fun s => some (s, n.2 + n.1)

def varintAt (off n : ℕ) : (left v mult i : ℕ) → Scan UInt8 Read
  | 0, _, _, _ => .pure .bad
  | left + 1, v, mult, i =>
    if i < n then
      (get (off + i)).bind fun b =>
        let v' := v + b.toNat % 128 * mult
        if b.toNat < 128 then .pure (.ok v' (i + 1))
        else varintAt off n left v' (mult * 128) (i + 1)
    else .pure .more

theorem u16At_reads (hlen : off + 2 ≤ len) :
    Yields mem len (u16At off) (· = ofU16 (mem off) (mem (off + 1))) := by
  refine (Yields.get (by omega)).bind fun x hx => (Yields.get (by omega)).map fun y hy => ?_
  rw [hx, hy]

theorem u16At_yields {a b : UInt8} (h : Held mem off (a :: b :: s)) (hlen : off + 2 ≤ len) :
    Yields mem len (u16At off) (· = ofU16 a b) :=
  (u16At_reads hlen).weaken fun n hn => by rw [hn, h.head, h.tail.head]

theorem takeU16At_yields (h : Rest mem len off d) :
    Yields mem len (takeU16At off len) (Option.Rel (Follows mem len) · (takeU16 d)) := by
  have hends := h.ends
  unfold takeU16At
  match d, h with
  | [], _ =>
    rw [if_pos (by rw [length_nil] at hends; omega)]
    exact .pure .none
  | [_], _ =>
    rw [if_pos (by rw [length_singleton] at hends; omega)]
    exact .pure .none
  | a :: b :: s, h =>
    have hlen : off + 2 ≤ len := by
      rw [length_cons, length_cons] at hends
      omega
    rw [if_neg (by omega)]
    refine (u16At_yields h.held hlen).map fun n hn => ?_
    exact .some ⟨hn, h.drop (n := 2) (by simp)⟩

theorem takeStringAt_yields (h : Rest mem len off d) :
    Yields mem len (takeStringAt off len) (Option.Rel (Follows mem len) · (takeString d)) := by
  refine (takeU16At_yields h).bindSome fun n p _ hp => ?_
  obtain ⟨hn, hrest⟩ := hp
  have hends := hrest.ends
  by_cases hlong : p.2.length < p.1
  · rw [if_pos hlong, if_pos (by omega)]
    exact .pure .none
  · rw [if_neg hlong, if_neg (by omega), hn]
    refine (Yields.span hrest.held (by omega) (by omega)).map fun s hs => ?_
    exact .some ⟨hs, hrest.drop (by omega)⟩

theorem varintAt_yields (h : Held mem off s) (hlen : off + s.length ≤ len) (left v mult : ℕ)
    {i : ℕ} (hi : i ≤ s.length) : Yields mem len (varintAt off s.length left v mult i)
      (· = readVarint left v mult i (s.drop i)) := by
  induction left generalizing v mult i with
  | zero => exact .pure rfl
  | succ left ih =>
    unfold varintAt
    split
    · next hmore =>
      rw [drop_eq_getElem_cons hmore]
      refine (Yields.get (by omega)).bind fun b hb => ?_
      rw [h i hmore] at hb
      subst hb
      dsimp only [readVarint]
      split
      · exact .pure rfl
      · exact ih _ _ hmore
    · next hend =>
      rw [drop_eq_nil_of_le (by omega)]
      exact .pure rfl

end

end Voxlib.Reads
