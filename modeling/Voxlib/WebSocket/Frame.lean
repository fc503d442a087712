import Voxlib.Lib.Wire

/-!
# WebSocket frames (vox_websocket.c)
-/

namespace Voxlib.WebSocket
open CStr Wire List

/- uint8_t mask_key[4]. -/
abbrev MaskKey := Fin 4 → UInt8

def MaskKey.bytes (key : MaskKey) : Bytes := List.ofFn key

/-- vox_ws_mask_payload (vox_websocket.c:128-134). -/
def maskPayload (payload : Bytes) (key : MaskKey) : Bytes :=
  payload.mapIdx fun i b => b ^^^ key ⟨i % 4, Nat.mod_lt i (by decide)⟩

@[simp]
theorem maskPayload_length (payload : Bytes) (key : MaskKey) :
    (maskPayload payload key).length = payload.length := length_mapIdx

theorem maskPayload_maskPayload (payload : Bytes) (key : MaskKey) :
    maskPayload (maskPayload payload key) key = payload := by
  refine ext_getElem (by simp) fun i h₁ h₂ => ?_
  simp only [maskPayload, getElem_mapIdx]
  rw [UInt8.xor_assoc, UInt8.xor_self, UInt8.xor_zero]

/-- vox_ws_frame_t; `payload` is the offset of the payload in the buffer. -/
structure Frame where
  fin : Bool := false
  opcode : UInt8 := 0
  masked : Bool := false
  payloadLen : ℕ := 0
  maskKey : MaskKey := fun _ => 0
  payload : ℕ := 0

/- The length behind the seven bits `len`, and the length of the header so far. -/
def readLength (buf : Bytes) (len : ℕ) : Option (ℕ × ℕ) :=
  if len = 126 then
    if buf.length < 4 then none else some (ofU16 (buf.getD 2 0) (buf.getD 3 0), 4)
  else if len = 127 then
    if buf.length < 10 then none
    else some (ofU64 (buf.getD 2 0) (buf.getD 3 0) (buf.getD 4 0) (buf.getD 5 0)
      (buf.getD 6 0) (buf.getD 7 0) (buf.getD 8 0) (buf.getD 9 0), 10)
  else some (len, 2)

/- `(int)n` of a uint64_t. -/
def toInt (n : ℕ) : ℤ := Int.bmod n (2 ^ 32)

/- With the header read (vox_websocket.c:110-124). -/
def parsePayload (buf : Bytes) (frame : Frame) (payloadLen headerLen : ℕ) : ℤ × Frame :=
  if buf.length < (headerLen + payloadLen) % 2 ^ 64 then (0, frame)
  else
    let frame := { frame with payload := headerLen }
    if frame.opcode &&& 0x08 ≠ 0 ∧ (¬ frame.fin ∨ payloadLen > 125) then (-1, frame)
    else (toInt (headerLen + payloadLen), frame)

/-- vox_ws_parser_parse_frame (vox_websocket.c:64-125) with `buf` in parser->buffer. -/
def parseFrame (buf : Bytes) (frame : Frame) : ℤ × Frame :=
  if buf.length < 2 then (0, frame)
  else
    let byte0 := buf.getD 0 0
    let byte1 := buf.getD 1 0
    let frame := { frame with
      fin := byte0 &&& 0x80 ≠ 0
      opcode := byte0 &&& 0x0F
      masked := byte1 &&& 0x80 ≠ 0 }
    match readLength buf (byte1 &&& 0x7F).toNat with
    | none => (0, frame)
    | some (payloadLen, headerLen) =>
      let frame := { frame with payloadLen := payloadLen }
      if frame.masked ∧ buf.length < headerLen + 4 then (0, frame)
      else
        let frame :=
          if frame.masked then { frame with maskKey := fun i => buf.getD (headerLen + i) 0 }
          else frame
        let headerLen := if frame.masked then headerLen + 4 else headerLen
        parsePayload buf frame payloadLen headerLen

/- The bytes that a parsed frame points to, unmasked if it is masked. -/
def Frame.content (frame : Frame) (buf : Bytes) : Bytes :=
  let payload := (buf.drop frame.payload).take frame.payloadLen
  if frame.masked then maskPayload payload frame.maskKey else payload

def lengthField (len : ℕ) : UInt8 × Bytes :=
  if len ≤ 125 then (UInt8.ofNat len, [])
  else if len ≤ 0xFFFF then (126, u16 len)
  else (127, u64 len)

/-- vox_ws_build_frame (vox_websocket.c:143-210); `key` is what vox_ws_generate_mask_key makes. -/
def buildFrame (alloc : ℕ → Bool) (opcode : UInt8) (payload : Bytes) (masked : Bool)
    (key : MaskKey) : Option Bytes :=
  let headerLen := 2 +
    (if payload.length > 125 then (if payload.length ≤ 0xFFFF then 2 else 8) else 0) +
    (if masked then 4 else 0)
  if ¬ alloc (headerLen + payload.length) then none
  else
    let field := lengthField payload.length
    some ((0x80 ||| (opcode &&& 0x0F)) :: (if masked then field.1 ||| 0x80 else field.1) ::
      (field.2 ++ ((if masked then key.bytes else []) ++
        (if masked then maskPayload payload key else payload))))

theorem byte0_reads (fin : Bool) : ∀ opcode : UInt8, opcode.toNat < 16 →
    (((if fin then 0x80 else 0) ||| (opcode &&& 0x0F)) &&& 0x80 ≠ 0 ↔ fin = true) ∧
      ((if fin then 0x80 else 0) ||| (opcode &&& 0x0F)) &&& 0x0F = opcode ∧
      (opcode &&& 0x08 ≠ 0 ↔ 8 ≤ opcode.toNat) := by
  cases fin with
  | true => exact forall_uint8 (by decide +kernel)
  | false => exact forall_uint8 (by decide +kernel)

theorem byte1_reads (masked : Bool) : ∀ field : UInt8, field.toNat < 128 →
    ((if masked then field ||| 0x80 else field) &&& 0x80 ≠ 0 ↔ masked = true) ∧
      ((if masked then field ||| 0x80 else field) &&& 0x7F) = field := by
  cases masked with
  | true => exact forall_uint8 (by decide +kernel)
  | false => exact forall_uint8 (by decide +kernel)

theorem getD_of_front {buf rest w : Bytes} (h : buf ++ rest = w) {i : ℕ} (hi : i < buf.length) :
    buf.getD i 0 = w.getD i 0 := by
  rw [← h, getD_eq_getElem?_getD, getD_eq_getElem?_getD, List.getElem?_append_left hi]

theorem lengthField_lt (n : ℕ) : (lengthField n).1.toNat < 128 := by
  unfold lengthField
  split
  · next h =>
    rw [UInt8.toNat_ofNat']
    omega
  · split
    · show (126 : UInt8).toNat < 128
      decide
    · show (127 : UInt8).toNat < 128
      decide

theorem readLength_field {n : ℕ} (hn : n < 2 ^ 64) {buf rest w : Bytes} {a b : UInt8}
    (h : buf ++ rest = a :: b :: ((lengthField n).2 ++ w)) (htwo : ¬ buf.length < 2) :
    readLength buf (lengthField n).1.toNat = if buf.length < 2 + (lengthField n).2.length then none
      else some (n, 2 + (lengthField n).2.length) := by
  have hget (i : ℕ) (hi : i < buf.length) := getD_of_front h hi
  unfold lengthField at h hget ⊢
  by_cases hshort : n ≤ 125
  · have hval : (UInt8.ofNat n).toNat = n := by
      rw [UInt8.toNat_ofNat']
      omega
    rw [if_pos hshort]
    unfold readLength
    dsimp only
    rw [hval, if_neg (by omega), if_neg (by omega), if_neg (by simpa using htwo)]
    rfl
  · rw [if_neg hshort] at h hget ⊢
    by_cases hmid : n ≤ 0xFFFF
    · rw [if_pos hmid] at h hget ⊢
      unfold readLength
      rw [if_pos (show (126 : UInt8).toNat = 126 by decide)]
      dsimp only
      rw [u16_length]
      by_cases hfour : buf.length < 4
      · rw [if_pos hfour, if_pos hfour]
      · rw [if_neg hfour, if_neg hfour, hget 2 (by omega), hget 3 (by omega)]
        show some (ofU16 (UInt8.ofNat (n / 256)) (UInt8.ofNat n), 4) = _
        rw [ofU16_ofNat (by omega)]
    · rw [if_neg hmid] at h hget ⊢
      unfold readLength
      rw [if_neg (show ¬ (127 : UInt8).toNat = 126 by decide),
        if_pos (show (127 : UInt8).toNat = 127 by decide)]
      dsimp only
      rw [u64_length]
      by_cases hten : buf.length < 10
      · rw [if_pos hten, if_pos hten]
      · rw [if_neg hten, if_neg hten, hget 2 (by omega), hget 3 (by omega), hget 4 (by omega),
          hget 5 (by omega), hget 6 (by omega), hget 7 (by omega), hget 8 (by omega),
          hget 9 (by omega)]
        show some (ofU64 (UInt8.ofNat (n / 2 ^ 32 / 2 ^ 24)) (UInt8.ofNat (n / 2 ^ 32 / 2 ^ 16))
          (UInt8.ofNat (n / 2 ^ 32 / 2 ^ 8)) (UInt8.ofNat (n / 2 ^ 32)) (UInt8.ofNat (n / 2 ^ 24))
          (UInt8.ofNat (n / 2 ^ 16)) (UInt8.ofNat (n / 2 ^ 8)) (UInt8.ofNat n), 10) = _
        rw [ofU64_ofNat hn]

variable {alloc : ℕ → Bool} {opcode : UInt8} {payload : Bytes} {masked : Bool} {key : MaskKey}
  {out : Bytes}

def lengthSize (n : ℕ) : ℕ := 2 + (lengthField n).2.length

def headerSize (n : ℕ) (masked : Bool) : ℕ := lengthSize n + if masked then 4 else 0

def body (payload : Bytes) (masked : Bool) (key : MaskKey) : Bytes :=
  (if masked then key.bytes else []) ++ (if masked then maskPayload payload key else payload)

theorem body_length (payload : Bytes) (masked : Bool) (key : MaskKey) :
    (body payload masked key).length = (if masked then 4 else 0) + payload.length := by
  unfold body
  cases masked with
  | true =>
    simp [MaskKey.bytes]
    omega
  | false => simp

def frameBytes (fin : Bool) (opcode : UInt8) (payload : Bytes) (masked : Bool) (key : MaskKey) :
    Bytes :=
  ((if fin then 0x80 else 0) ||| (opcode &&& 0x0F)) ::
    (if masked then (lengthField payload.length).1 ||| 0x80
      else (lengthField payload.length).1) ::
    ((lengthField payload.length).2 ++ body payload masked key)

theorem frameBytes_length (fin : Bool) (opcode : UInt8) (payload : Bytes) (masked : Bool)
    (key : MaskKey) : (frameBytes fin opcode payload masked key).length =
      headerSize payload.length masked + payload.length := by
  unfold frameBytes headerSize lengthSize
  simp only [length_cons, length_append, body_length]
  omega

theorem buildFrame_eq (h : buildFrame alloc opcode payload masked key = some out) :
    out = frameBytes true opcode payload masked key := by
  unfold buildFrame at h
  obtain ⟨-, hout⟩ := Option.ite_none_left_eq_some.mp h
  exact (Option.some.inj hout).symm

def parsed (opcode : UInt8) (n : ℕ) (masked : Bool) (key : MaskKey) (frame : Frame) : Frame where
  fin := true
  opcode := opcode
  masked := masked
  payloadLen := n
  maskKey := if masked then key else frame.maskKey
  payload := headerSize n masked

theorem toInt_of_lt {n : ℕ} (h : n < 2 ^ 31) : toInt n = n :=
  Int.bmod_eq_of_le_mul_two (by omega) (by omega)

theorem maskKey_read {buf rest tail ext : Bytes} {a b : UInt8}
    (h : buf ++ rest = a :: b :: (ext ++ (body payload true key ++ tail)))
    (hlen : 2 + ext.length + 4 ≤ buf.length) :
    (fun i : Fin 4 => buf.getD (2 + ext.length + i) 0) = key := by
  funext i
  have hi := i.isLt
  rw [getD_of_front h (by omega)]
  have hindex : 2 + ext.length + (i : ℕ) = ext.length + i + 1 + 1 := by omega
  have hkey : (i : ℕ) < (List.ofFn key).length := by simp
  unfold body MaskKey.bytes
  rw [hindex, if_pos rfl, if_pos rfl, getD_eq_getElem?_getD, List.getElem?_cons_succ,
    List.getElem?_cons_succ, List.getElem?_append_right (by omega),
    Nat.add_sub_cancel_left, append_assoc, List.getElem?_append_left hkey,
    List.getElem?_eq_getElem hkey]
  exact List.getElem_ofFn hkey

theorem parsePayload_valid {buf : Bytes} {f g : Frame} {n header : ℕ}
    (hf : { f with payload := header } = g)
    (hcontrol : g.opcode &&& 0x08 ≠ 0 → g.fin = true ∧ n ≤ 125)
    (hmax : header + n < 2 ^ 31) :
    (buf.length < header + n → (parsePayload buf f n header).1 = 0) ∧
      (header + n ≤ buf.length → parsePayload buf f n header = (((header + n : ℕ) : ℤ), g)) := by
  have htotal : (header + n) % 2 ^ 64 = header + n := Nat.mod_eq_of_lt (by omega)
  subst hf
  have hvalid : ¬ (f.opcode &&& 0x08 ≠ 0 ∧ (¬ f.fin = true ∨ n > 125)) := by
    rintro ⟨hop8, hbad | hbig⟩
    · exact hbad (hcontrol hop8).1
    · have hle := (hcontrol hop8).2
      omega
  unfold parsePayload
  rw [htotal, if_neg hvalid, toInt_of_lt hmax]
  exact ⟨fun hlt => by rw [if_pos hlt], fun hle => by rw [if_neg (Nat.not_lt.mpr hle)]⟩

theorem parseFrame_front {fin : Bool} (hop : opcode.toNat < 16)
    (hcontrol : 8 ≤ opcode.toNat → fin = true ∧ payload.length ≤ 125)
    (hout : out = frameBytes fin opcode payload masked key)
    (hmax : out.length ≤ 2 ^ 31 - 1) {buf rest tail : Bytes} (h : buf ++ rest = out ++ tail)
    (frame : Frame) : (buf.length < out.length → (parseFrame buf frame).1 = 0) ∧
    (out.length ≤ buf.length → parseFrame buf frame = ((out.length : ℤ),
        { parsed opcode payload.length masked key frame with fin := fin })) := by
  have hlen : out.length = headerSize payload.length masked + payload.length := by
    rw [hout, frameBytes_length]
  have hw : buf ++ rest = ((if fin then 0x80 else 0) ||| (opcode &&& 0x0F)) ::
      (if masked then (lengthField payload.length).1 ||| 0x80
        else (lengthField payload.length).1) ::
      ((lengthField payload.length).2 ++ (body payload masked key ++ tail)) := by
    rw [h, hout]
    simp [frameBytes, append_assoc]
  have hn : payload.length < 2 ^ 64 := by omega
  have hmin : 2 ≤ headerSize payload.length masked := by
    unfold headerSize lengthSize
    omega
  unfold parseFrame
  by_cases htwo : buf.length < 2
  · rw [if_pos htwo]
    exact ⟨fun _ => rfl, fun hle => absurd hle (by omega)⟩
  · rw [if_neg htwo]
    have hb0 : buf.getD 0 0 = (if fin then 0x80 else 0) ||| (opcode &&& 0x0F) :=
      getD_of_front hw (by omega)
    have hb1 : buf.getD 1 0 = if masked then (lengthField payload.length).1 ||| 0x80
        else (lengthField payload.length).1 := getD_of_front hw (by omega)
    obtain ⟨hfin, hopcode, hcontrol'⟩ := byte0_reads fin opcode hop
    have hfin' : decide (((if fin then 0x80 else 0) ||| (opcode &&& 0x0F)) &&& 0x80 ≠ 0) = fin := by
      rw [Bool.eq_iff_iff, decide_eq_true_iff]
      exact hfin
    obtain ⟨hmask, hfield⟩ := byte1_reads masked _ (lengthField_lt payload.length)
    have hmasked : decide ((if masked then (lengthField payload.length).1 ||| 0x80
        else (lengthField payload.length).1) &&& 0x80 ≠ 0) = masked := by
      rw [Bool.eq_iff_iff, decide_eq_true_iff]
      exact hmask
    rw [hb0, hb1]
    dsimp only
    rw [hfield, readLength_field hn hw htwo, hfin', hopcode, hmasked]
    by_cases hlength : buf.length < lengthSize payload.length
    · rw [if_pos (show buf.length < 2 + (lengthField payload.length).2.length from hlength)]
      exact ⟨fun _ => rfl, fun hle => absurd hle (by unfold headerSize at hlen; omega)⟩
    · rw [if_neg (show ¬ buf.length < 2 + (lengthField payload.length).2.length from hlength)]
      dsimp only
      have hcontrol8 : opcode &&& 0x08 ≠ 0 → fin = true ∧ payload.length ≤ 125 := fun h8 =>
        hcontrol (hcontrol'.mp h8)
      have htotal : headerSize payload.length masked + payload.length < 2 ^ 31 := by omega
      rw [hlen]
      cases masked with
      | false =>
        have hsize : headerSize payload.length false =
            2 + (lengthField payload.length).2.length := by
          simp [headerSize, lengthSize]
        rw [if_neg fun hk => Bool.false_ne_true hk.1, if_neg Bool.false_ne_true,
          if_neg Bool.false_ne_true]
        rw [hsize] at htotal ⊢
        refine parsePayload_valid ?_ hcontrol8 htotal
        unfold parsed
        rw [hsize, if_neg Bool.false_ne_true]
      | true =>
        by_cases hkey : buf.length < 2 + (lengthField payload.length).2.length + 4
        · rw [if_pos ⟨rfl, hkey⟩]
          refine ⟨fun _ => rfl, fun hle => absurd hle ?_⟩
          unfold headerSize lengthSize
          rw [if_pos rfl]
          omega
        · rw [if_neg fun hk => hkey hk.2]
          refine parsePayload_valid ?_ hcontrol8 htotal
          unfold parsed
          rw [if_pos rfl, if_pos rfl, maskKey_read hw (by omega)]

theorem drop_header {fin : Bool} (hout : out = frameBytes fin opcode payload masked key)
    (tail : Bytes) : ((out ++ tail).drop (headerSize payload.length masked)).take payload.length =
      if masked then maskPayload payload key else payload := by
  have hsplit : out ++ tail = (((if fin then 0x80 else 0) ||| (opcode &&& 0x0F)) ::
      (if masked then (lengthField payload.length).1 ||| 0x80
        else (lengthField payload.length).1) ::
      ((lengthField payload.length).2 ++ if masked then key.bytes else [])) ++
      ((if masked then maskPayload payload key else payload) ++ tail) := by
    rw [hout]
    simp [frameBytes, body, append_assoc]
  rw [hsplit, drop_left' (by
    unfold headerSize lengthSize
    cases masked <;> simp [MaskKey.bytes] <;> omega)]
  refine take_left' ?_
  cases masked <;> simp

theorem content_parsed {fin : Bool} (hout : out = frameBytes fin opcode payload masked key)
    (tail : Bytes) (frame : Frame) :
    ({ parsed opcode payload.length masked key frame with fin := fin } : Frame).content
      (out ++ tail) = payload := by
  have hpayload := drop_header hout tail
  cases masked with
  | true =>
    rw [if_pos rfl] at hpayload
    show maskPayload (((out ++ tail).drop (headerSize payload.length true)).take
      payload.length) key = payload
    rw [hpayload]
    exact maskPayload_maskPayload payload key
  | false =>
    rw [if_neg Bool.false_ne_true] at hpayload
    exact hpayload

/-- A built frame with any bytes behind it is parsed back, and no proper part of it from its start
on is. -/
theorem frame_round_trip (alloc : ℕ → Bool) (opcode : UInt8) (payload : Bytes) (masked : Bool)
    (key : MaskKey) (out : Bytes) (hop : opcode.toNat < 16)
    (hcontrol : 8 ≤ opcode.toNat → payload.length ≤ 125)
    (hbuilt : buildFrame alloc opcode payload masked key = some out)
    (hmax : out.length ≤ 2 ^ 31 - 1) (frame : Frame) :
    (∀ tail : Bytes, ∃ f, parseFrame (out ++ tail) frame = ((out.length : ℤ), f) ∧
      f.fin = true ∧ f.opcode = opcode ∧ f.masked = masked ∧ f.payloadLen = payload.length ∧
      f.content (out ++ tail) = payload) ∧
    ∀ n < out.length, (parseFrame (out.take n) frame).1 = 0 := by
  have hout := buildFrame_eq hbuilt
  have hcontrol' : 8 ≤ opcode.toNat → true = true ∧ payload.length ≤ 125 := fun h =>
    ⟨rfl, hcontrol h⟩
  constructor
  · intro tail
    have hparsed := (parseFrame_front hop hcontrol' hout hmax
      (append_nil (out ++ tail)) frame).2 (by simp)
    exact ⟨_, hparsed, rfl, rfl, rfl, rfl, content_parsed hout tail frame⟩
  · intro n hn
    have hpart : out.take n ++ out.drop n = out ++ [] := by simp
    refine (parseFrame_front hop hcontrol' hout hmax hpart frame).1 ?_
    rw [length_take]
    omega

theorem sample_round_trip :
    (∀ tail : Bytes, ∃ f, parseFrame ([0x89, 0x82, 1, 2, 3, 4, 0x69, 0x6B] ++ tail) {} =
        (((8 : ℕ) : ℤ), f) ∧ f.fin = true ∧ f.opcode = 9 ∧ f.masked = true ∧ f.payloadLen = 2 ∧
      f.content ([0x89, 0x82, 1, 2, 3, 4, 0x69, 0x6B] ++ tail) = lit "hi") ∧
    ∀ n < 8, (parseFrame (List.take n [0x89, 0x82, 1, 2, 3, 4, 0x69, 0x6B]) {}).1 = 0 :=
  frame_round_trip (fun _ => true) 9 (lit "hi") true (fun i => UInt8.ofNat (i + 1)) _ (by decide)
    (by decide) (by decide +kernel) (by decide) {}

end Voxlib.WebSocket
