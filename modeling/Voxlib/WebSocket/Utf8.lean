import Voxlib.Lib.Utf8
import Voxlib.WebSocket.Messages

/-!
# The check of a text (vox_websocket.c)

vox_ws_validate_utf8 accepts a group that encodes no character.
-/

namespace Voxlib.WebSocket
open CStr Utf8 List

theorem charLen_eq (b : UInt8) : charLen b = if b.toNat < 0x80 then 1 else if b.toNat < 0xC0 then 0
      else if b.toNat < 0xE0 then 2 else if b.toNat < 0xF0 then 3
      else if b.toNat < 0xF8 then 4 else 0 := by
  have hall : ∀ n : Fin 256, charLen (UInt8.ofNat n) =
      if n.val < 0x80 then 1 else if n.val < 0xC0 then 0
      else if n.val < 0xE0 then 2 else if n.val < 0xF0 then 3
      else if n.val < 0xF8 then 4 else 0 := by decide +kernel
  have := hall ⟨b.toNat, b.toNat_lt⟩
  rwa [UInt8.ofNat_toNat] at this

theorem tail_iff (b : UInt8) : b &&& 0xC0 = 0x80 ↔ Tail b := by
  have hall : ∀ n : Fin 256, UInt8.ofNat n &&& 0xC0 = 0x80 ↔ 0x80 ≤ n.val ∧ n.val < 0xC0 := by
    decide +kernel
  have := hall ⟨b.toNat, b.toNat_lt⟩
  rwa [UInt8.ofNat_toNat] at this

theorem shaped_take {byte : UInt8} {rest : Bytes} (hlen : charLen byte ≠ 0)
    (hrest : charLen byte ≤ rest.length + 1) :
    (rest.take (charLen byte - 1)).all (fun b => b &&& 0xC0 = 0x80) = true ↔
      Shaped (byte :: rest.take (charLen byte - 1)) := by
  rw [charLen_eq] at *
  simp only [all_eq_true, decide_eq_true_eq, tail_iff]
  constructor
  · intro hall
    split_ifs at * with h1 h2 h3 h4 h5
    · exact .one h1
    · exact absurd rfl hlen
    · rcases rest with _ | ⟨b, rest⟩
      · simp at hrest
      · exact .two (by omega) h3 (hall b (by simp))
    · rcases rest with _ | ⟨b, _ | ⟨c, rest⟩⟩
      · simp at hrest
      · simp at hrest
      · exact .three (by omega) h4 (hall b (by simp)) (hall c (by simp))
    · rcases rest with _ | ⟨b, _ | ⟨c, _ | ⟨d, rest⟩⟩⟩
      · simp at hrest
      · simp at hrest
      · simp at hrest
      · exact .four (by omega) h5 (hall b (by simp)) (hall c (by simp)) (hall d (by simp))
    · exact absurd rfl hlen
  · intro hg
    generalize rest.take _ = tail at hg
    cases hg with
    | one => simp
    | two _ _ hb => simp [hb]
    | three _ _ hb hc => simp [hb, hc]
    | four _ _ hb hc hd => simp [hb, hc, hd]

theorem charLen_shaped {byte : UInt8} {tail : Bytes} (h : Shaped (byte :: tail)) :
    charLen byte = tail.length + 1 := by
  rw [charLen_eq]
  cases h <;> simp only [length_cons, length_nil] <;> split_ifs <;> omega

theorem validateChars_iff {n : ℕ} {data : Bytes} (hn : data.length ≤ n) :
    validateChars n data = true ↔ ∃ gs, Divides data gs := by
  induction n generalizing data with
  | zero =>
    obtain rfl := length_eq_zero_iff.mp (Nat.le_zero.mp hn)
    exact iff_of_true rfl ⟨[], rfl, by simp⟩
  | succ n ih =>
    rcases data with _ | ⟨byte, rest⟩
    · exact iff_of_true rfl ⟨[], rfl, by simp⟩
    have hdrop : (rest.drop (charLen byte - 1)).length ≤ n := by
      simp only [length_cons, length_drop] at hn ⊢
      omega
    rw [validateChars]
    constructor
    · intro h
      split_ifs at h with hlen hrest hall
      obtain ⟨gs, hgs⟩ := (ih hdrop).mp h
      refine ⟨(byte :: rest.take (charLen byte - 1)) :: gs, ?_, ?_⟩
      · rw [flatten_cons, hgs.flatten, cons_append, take_append_drop]
      · rintro g (_ | ⟨_, hg⟩)
        · exact (shaped_take hlen (by omega)).mp hall
        · exact hgs.shaped g hg
    · rintro ⟨_ | ⟨g, gs⟩, hflat, hgs⟩
      · exact absurd hflat (by simp)
      obtain ⟨tail, rfl⟩ : ∃ tail, g = byte :: tail := by
        rcases g with _ | ⟨b, tail⟩
        · exact absurd rfl (hgs [] (mem_cons_self ..)).ne_nil
        · rw [flatten_cons, cons_append] at hflat
          exact ⟨tail, by rw [(List.cons.inj hflat).1]⟩
      have hg := hgs _ (mem_cons_self ..)
      have hlen := charLen_shaped hg
      obtain rfl : rest = tail ++ gs.flatten := by simpa using hflat.symm
      have htake : (tail ++ gs.flatten).take (charLen byte - 1) = tail := by simp [hlen]
      have hshape : ((tail ++ gs.flatten).take (charLen byte - 1)).all
          (fun b => b &&& 0xC0 = 0x80) = true :=
        (shaped_take (by omega) (by simp [hlen])).mpr (by rwa [htake])
      rw [if_neg (by omega), if_neg (by simp [hlen]), if_pos hshape]
      exact (ih hdrop).mpr ⟨gs, by simp [hlen], fun x hx => hgs x (mem_cons_of_mem _ hx)⟩

theorem validateUtf8_iff {data : Bytes} : validateUtf8 data = true ↔ ∃ gs, Divides data gs :=
  validateChars_iff le_rfl

/-- The check is right about a text if and only if no group of it is overlong, a surrogate or
above U+10FFFF. -/
theorem validateUtf8_right_iff (data : Bytes) : (validateUtf8 data = true ↔ WellFormed data) ↔
      ∀ gs, Divides data gs → ∀ g ∈ gs, ¬ Faulty g := by
  rw [validateUtf8_iff, wellFormed_iff]
  constructor
  · intro h gs hgs
    obtain ⟨gs', hgs', hfault⟩ := h.mp ⟨gs, hgs⟩
    rwa [hgs.unique hgs']
  · intro h
    exact ⟨fun ⟨gs, hgs⟩ => ⟨gs, hgs, h gs hgs⟩, fun ⟨gs, hgs, _⟩ => ⟨gs, hgs⟩⟩

/-- C0 80, an overlong form of NUL, is accepted. -/
theorem validateUtf8_overlong : ¬ (validateUtf8 [0xC0, 0x80] = true ↔ WellFormed [0xC0, 0x80]) := by
  intro h
  have hg : Shaped [0xC0, 0x80] := .two (by decide) (by decide) ⟨by decide, by decide⟩
  have hdiv : Divides [0xC0, 0x80] [[0xC0, 0x80]] := ⟨rfl, by simpa using hg⟩
  obtain ⟨gs, hgs, hfault⟩ := wellFormed_iff.mp (h.mp (by decide))
  obtain rfl := hdiv.unique hgs
  exact hfault _ (mem_cons_self ..) (.inl (by decide))

end Voxlib.WebSocket
