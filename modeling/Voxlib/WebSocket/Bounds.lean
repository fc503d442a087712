import Voxlib.WebSocket.Frame

/-!
# The bounds of a parsed frame

The lengths of header and payload are added as 64 bit words and returned as an int.
-/

namespace Voxlib.WebSocket
open CStr Wire Option

def isControl (buf : Bytes) : Bool := buf.getD 0 0 &&& 0x0F &&& 0x08 ≠ 0

def isFinal (buf : Bytes) : Bool := buf.getD 0 0 &&& 0x80 ≠ 0

def isMasked (buf : Bytes) : Bool := buf.getD 1 0 &&& 0x80 ≠ 0

/- The payload length in the header, and the length of the header with its mask key; none while
   the header is not there. -/
def headerOf (buf : Bytes) : Option (ℕ × ℕ) :=
  if buf.length < 2 then none
  else
    match readLength buf (buf.getD 1 0 &&& 0x7F).toNat with
    | none => none
    | some (payloadLen, headerLen) =>
      if isMasked buf ∧ buf.length < headerLen + 4 then none
      else some (payloadLen, if isMasked buf then headerLen + 4 else headerLen)

theorem ofU64_lt (a b c d e f g h : UInt8) : ofU64 a b c d e f g h < 2 ^ 64 := by
  have ha := a.toNat_lt
  have hb := b.toNat_lt
  have hc := c.toNat_lt
  have hd := d.toNat_lt
  have he := e.toNat_lt
  have hf := f.toNat_lt
  have hg := g.toNat_lt
  have hh := h.toNat_lt
  unfold ofU64 ofU32
  omega

variable {buf : Bytes}

theorem readLength_some {len n h : ℕ} (hbuf : ¬ buf.length < 2) (hlen : len < 2 ^ 64)
    (hread : readLength buf len = some (n, h)) : n < 2 ^ 64 ∧ 2 ≤ h ∧ h ≤ 10 ∧ h ≤ buf.length := by
  unfold readLength at hread
  split at hread
  · obtain ⟨hfour, heq⟩ := ite_none_left_eq_some.mp hread
    obtain ⟨rfl, rfl⟩ := Prod.mk.inj (some.inj heq)
    have hsmall := ofU16_lt (buf.getD 2 0) (buf.getD 3 0)
    exact ⟨by omega, by omega, by omega, by omega⟩
  · split at hread
    · obtain ⟨hten, heq⟩ := ite_none_left_eq_some.mp hread
      obtain ⟨rfl, rfl⟩ := Prod.mk.inj (some.inj heq)
      exact ⟨ofU64_lt .., by omega, le_refl _, by omega⟩
    · obtain ⟨rfl, rfl⟩ := Prod.mk.inj (some.inj hread)
      exact ⟨hlen, le_refl _, by omega, by omega⟩

theorem headerOf_some {n h : ℕ} (hheader : headerOf buf = some (n, h)) :
    n < 2 ^ 64 ∧ 2 ≤ h ∧ h ≤ 14 ∧ h ≤ buf.length := by
  unfold headerOf at hheader
  obtain ⟨htwo, hheader⟩ := ite_none_left_eq_some.mp hheader
  split at hheader
  · cases hheader
  · next m k hread =>
    have hseven := (buf.getD 1 0 &&& 0x7F).toNat_lt
    obtain ⟨hn, hmin, hmax, hin⟩ := readLength_some htwo (by omega) hread
    obtain ⟨hkey, heq⟩ := ite_none_left_eq_some.mp hheader
    obtain ⟨rfl, rfl⟩ := Prod.mk.inj (some.inj heq)
    refine ⟨hn, ?_, ?_, ?_⟩
    · split <;> omega
    · split <;> omega
    · split
      · next hmasked =>
        by_contra hlt
        exact hkey ⟨hmasked, by omega⟩
      · exact hin

theorem parseFrame_none (hheader : headerOf buf = none) (frame : Frame) :
    (parseFrame buf frame).1 = 0 := by
  unfold headerOf at hheader
  unfold parseFrame
  by_cases htwo : buf.length < 2
  · rw [if_pos htwo]
  · rw [if_neg htwo] at hheader ⊢
    dsimp only
    cases hread : readLength buf (buf.getD 1 0 &&& 0x7F).toNat with
    | none => rfl
    | some r =>
      rw [hread] at hheader
      dsimp only at hheader ⊢
      by_cases hkey : isMasked buf = true ∧ buf.length < r.2 + 4
      · exact congrArg Prod.fst (if_pos hkey)
      · rw [if_neg hkey] at hheader
        cases hheader

theorem parseFrame_some {n h : ℕ} (hheader : headerOf buf = some (n, h)) (frame : Frame) :
    ∃ f : Frame, parseFrame buf frame = parsePayload buf f n h ∧
      f.payloadLen = n ∧ f.opcode = buf.getD 0 0 &&& 0x0F ∧ f.fin = isFinal buf := by
  unfold headerOf at hheader
  obtain ⟨htwo, hheader⟩ := ite_none_left_eq_some.mp hheader
  unfold parseFrame
  rw [if_neg htwo]
  dsimp only
  cases hread : readLength buf (buf.getD 1 0 &&& 0x7F).toNat with
  | none =>
    rw [hread] at hheader
    cases hheader
  | some r =>
    rw [hread] at hheader
    dsimp only at hheader ⊢
    obtain ⟨hkey, heq⟩ := ite_none_left_eq_some.mp hheader
    obtain ⟨rfl, rfl⟩ := Prod.mk.inj (some.inj heq)
    have hkey' : ¬ (decide (buf.getD 1 0 &&& 0x80 ≠ 0) = true ∧ buf.length < r.2 + 4) := hkey
    rw [if_neg hkey']
    by_cases hmasked : isMasked buf = true
    · have hmasked' : decide (buf.getD 1 0 &&& 0x80 ≠ 0) = true := hmasked
      rw [if_pos hmasked, if_pos hmasked', if_pos hmasked']
      exact ⟨_, rfl, rfl, rfl, rfl⟩
    · have hmasked' : ¬ decide (buf.getD 1 0 &&& 0x80 ≠ 0) = true := hmasked
      rw [if_neg hmasked, if_neg hmasked', if_neg hmasked']
      exact ⟨_, rfl, rfl, rfl, rfl⟩

/- A number of bytes is the whole frame, which is in the buffer with its payload; 0 says that the
   frame is not all there, and -1 is the only error, a control frame that is not one. -/
structure InBounds (buf : Bytes) (r : ℤ × Frame) : Prop where
  taken : 0 < r.1 → ∃ n h, headerOf buf = some (n, h) ∧ r.1 = ((h + n : ℕ) : ℤ) ∧
    h + n ≤ buf.length ∧ r.2.payloadLen = n ∧ r.2.payload + n ≤ buf.length
  waits : r.1 = 0 → ∀ n h, headerOf buf = some (n, h) → buf.length < h + n
  fails : r.1 < 0 → r.1 = -1 ∧ isControl buf = true ∧
    ∃ n h, headerOf buf = some (n, h) ∧ (isFinal buf = false ∨ 125 < n)

theorem toInt_natCast {n : ℕ} (h : toInt n = (n : ℤ)) : n < 2 ^ 31 := by
  have hlt := @Int.bmod_lt (n : ℤ) (2 ^ 32) (by norm_num)
  rw [show Int.bmod (n : ℤ) (2 ^ 32) = n from h] at hlt
  norm_num at hlt
  omega

theorem wrapped_zero {n h len : ℕ} (hh : h ≤ 14) (hn : n < 2 ^ 64) (hlt : len < h + n)
    (hwhole : (h + n) % 2 ^ 64 ≤ len) (hzero : toInt (h + n) = 0) : h + n = 2 ^ 64 := by
  have hdvd : ((2 ^ 32 : ℕ) : ℤ) ∣ ((h + n : ℕ) : ℤ) := Int.dvd_of_bmod_eq_zero hzero
  have hwrap : 2 ^ 64 ≤ h + n := by
    by_contra hsum
    rw [Nat.mod_eq_of_lt (by omega)] at hwhole
    omega
  omega

/-- The frame of a whole header, by what the sum of the two lengths is. -/
theorem parsePayload_inBounds {f : Frame} {n h : ℕ} (hheader : headerOf buf = some (n, h))
    (hlen : f.payloadLen = n) (hopcode : f.opcode = buf.getD 0 0 &&& 0x0F)
    (hfin : f.fin = isFinal buf) : InBounds buf (parsePayload buf f n h) ↔
      isControl buf = true ∨ h + n < 2 ^ 31 ∨ (buf.length < h + n ∧ h + n ≤ 2 ^ 64) := by
  obtain ⟨hn, hmin, hh, hin⟩ := headerOf_some hheader
  have hcontrol : f.opcode &&& 0x08 ≠ 0 ↔ isControl buf = true := by
    rw [hopcode]
    exact decide_eq_true_iff.symm
  unfold parsePayload
  by_cases hwait : buf.length < (h + n) % 2 ^ 64
  · -- more is wanted, and the sum has not wrapped: a wrapped one is below the header length
    have hsum : h + n < 2 ^ 64 := by
      by_contra hwrap
      have hmod : (h + n) % 2 ^ 64 = h + n - 2 ^ 64 := by omega
      omega
    rw [Nat.mod_eq_of_lt hsum] at hwait
    rw [if_pos (by rwa [Nat.mod_eq_of_lt hsum])]
    refine iff_of_true ⟨fun hpos => absurd hpos (lt_irrefl 0), fun _ m k hm => ?_,
      fun hneg => absurd hneg (lt_irrefl 0)⟩ (.inr (.inr ⟨hwait, hsum.le⟩))
    obtain ⟨rfl, rfl⟩ := Prod.mk.inj (some.inj (hheader.symm.trans hm))
    exact hwait
  · rw [if_neg hwait]
    by_cases hbad : f.opcode &&& 0x08 ≠ 0 ∧ (¬ f.fin = true ∨ n > 125)
    · dsimp only
      rw [if_pos hbad]
      refine iff_of_true ⟨fun hpos => ?_, fun hzero => ?_, fun _ => ?_⟩
        (.inl (hcontrol.mp hbad.1))
      · exact absurd hpos (show ¬ (0 : ℤ) < -1 by decide)
      · exact absurd hzero (show ¬ (-1 : ℤ) = 0 by decide)
      · refine ⟨rfl, hcontrol.mp hbad.1, n, h, hheader, ?_⟩
        rw [← hfin]
        exact hbad.2.imp_left Bool.eq_false_of_not_eq_true
    · dsimp only
      rw [if_neg hbad]
      have hwhole : (h + n) % 2 ^ 64 ≤ buf.length := Nat.not_lt.mp hwait
      generalize hr : toInt (h + n) = r
      constructor
      · rintro ⟨htaken, hwaits, hfails⟩
        rcases lt_trichotomy r 0 with hneg | hzero | hpos
        · exact .inl (hfails hneg).2.1
        · refine .inr (.inr ⟨hwaits hzero n h hheader, ?_⟩)
          have hlt := hwaits hzero n h hheader
          exact (wrapped_zero hh hn hlt hwhole (hr.trans hzero)).le
        · obtain ⟨m, k, hm, hsum, -⟩ := htaken hpos
          obtain ⟨rfl, rfl⟩ := Prod.mk.inj (some.inj (hheader.symm.trans hm))
          exact .inr (.inl (toInt_natCast (hr.trans hsum)))
      · intro hcond
        by_cases hsmall : h + n < 2 ^ 31
        · rw [Nat.mod_eq_of_lt (by omega)] at hwhole
          have hsum : r = ((h + n : ℕ) : ℤ) := hr.symm.trans (toInt_of_lt hsmall)
          refine ⟨fun _ => ⟨n, h, hheader, hsum, hwhole, hlen, hwhole⟩, fun hzero => ?_,
            fun hneg => ?_⟩
          · exact absurd (hsum.symm.trans hzero) (by omega)
          · exact absurd (hsum ▸ hneg) (by omega)
        · -- a control frame is short, and what is not all there has wrapped
          have hwrap : h + n = 2 ^ 64 ∧ buf.length < h + n := by
            rcases hcond with hc | hlt | ⟨hlt, hle⟩
            · have hshort : ¬ n > 125 := fun hbig => hbad ⟨hcontrol.mpr hc, .inr hbig⟩
              omega
            · exact absurd hlt hsmall
            · have hge : ¬ h + n < 2 ^ 64 := fun hsum => by
                rw [Nat.mod_eq_of_lt hsum] at hwhole
                omega
              exact ⟨by omega, hlt⟩
          have hzero : r = 0 := by
            rw [← hr, hwrap.1]
            rfl
          refine ⟨fun hpos => absurd hpos (by omega), fun _ m k hm => ?_,
            fun hneg => absurd hneg (by omega)⟩
          obtain ⟨rfl, rfl⟩ := Prod.mk.inj (some.inj (hheader.symm.trans hm))
          exact hwrap.2

/-- What is reported lies in the buffer if and only if the header is not there yet, the frame is a
control frame, the two lengths add up to less than 2^31, or they add up to no more than 2^64 and to
more than what is there. -/
theorem parseFrame_inBounds_iff (buf : Bytes) (frame : Frame) :
    InBounds buf (parseFrame buf frame) ↔ ∀ n h, headerOf buf = some (n, h) →
        isControl buf = true ∨ h + n < 2 ^ 31 ∨ (buf.length < h + n ∧ h + n ≤ 2 ^ 64) := by
  cases hheader : headerOf buf with
  | none =>
    have hzero := parseFrame_none hheader frame
    refine iff_of_true ⟨fun hpos => ?_, fun _ n h hsome => ?_, fun hneg => ?_⟩
      (fun n h hsome => by cases hsome)
    · exact absurd (hzero ▸ hpos) (lt_irrefl 0)
    · rw [hheader] at hsome
      cases hsome
    · exact absurd (hzero ▸ hneg) (lt_irrefl 0)
  | some r =>
    obtain ⟨f, hparse, hlen, hopcode, hfin⟩ := parseFrame_some hheader frame
    rw [hparse, parsePayload_inBounds hheader hlen hopcode hfin]
    refine ⟨fun hcond n h hsome => ?_, fun hcond => hcond r.1 r.2 rfl⟩
    obtain ⟨rfl, rfl⟩ := Prod.mk.inj (some.inj hsome)
    exact hcond

/-- A frame that says it has 2^64 - 1 bytes of payload, of which none is there, is taken for one
of nine bytes. -/
theorem endless_frame_taken :
    ¬ InBounds [0x82, 0x7F, 0xFF, 0xFF, 0xFF, 0xFF, 0xFF, 0xFF, 0xFF, 0xFF]
      (parseFrame [0x82, 0x7F, 0xFF, 0xFF, 0xFF, 0xFF, 0xFF, 0xFF, 0xFF, 0xFF] {}) := by
  intro h
  have hnine : (parseFrame [0x82, 0x7F, 0xFF, 0xFF, 0xFF, 0xFF, 0xFF, 0xFF, 0xFF, 0xFF] {}).1 =
      9 := by decide +kernel
  have hheader : headerOf [0x82, 0x7F, 0xFF, 0xFF, 0xFF, 0xFF, 0xFF, 0xFF, 0xFF, 0xFF] =
      some (2 ^ 64 - 1, 10) := by decide +kernel
  obtain ⟨n, k, hsome, hsum, -⟩ := h.taken (by rw [hnine]; decide)
  obtain ⟨rfl, rfl⟩ := Prod.mk.inj (some.inj (hheader.symm.trans hsome))
  rw [hnine] at hsum
  omega

end Voxlib.WebSocket
