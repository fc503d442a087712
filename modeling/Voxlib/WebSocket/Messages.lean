import Voxlib.Lib.Frames
import Voxlib.WebSocket.Frame

/-!
# WebSocket messages (vox_websocket.c)

A message comes in fragments, between which control frames may stand.
-/

namespace Voxlib.WebSocket
open CStr Wire Stream

/-- What the pool gives a connection: the sizes it has a block for, and the lengths to which the
strings of the connection can grow. -/
structure Memory where
  alloc : ℕ → Bool
  grow : ℕ → Bool

/- The bytes of the character that begins with `byte`; 0 where none does. -/
def charLen (byte : UInt8) : ℕ :=
  if byte &&& 0x80 = 0 then 1
  else if byte &&& 0xE0 = 0xC0 then 2
  else if byte &&& 0xF0 = 0xE0 then 3
  else if byte &&& 0xF8 = 0xF0 then 4
  else 0

def validateChars : ℕ → Bytes → Bool
  | _, [] => true
  | 0, _ :: _ => false
  | n + 1, byte :: rest =>
    if charLen byte = 0 then false
    else if rest.length + 1 < charLen byte then false
    else if (rest.take (charLen byte - 1)).all fun b => b &&& 0xC0 = 0x80 then
      validateChars n (rest.drop (charLen byte - 1))
    else false

/-- vox_ws_validate_utf8 (vox_websocket.c:272-311). -/
def validateUtf8 (data : Bytes) : Bool := validateChars data.length data

/-- vox_ws_is_valid_close_code (vox_websocket.c:213-225), as vox_http_ws_is_valid_close_code
(vox_http_ws.c:86-99). -/
def isValidCloseCode (code : ℕ) : Bool :=
  if code < 1000 ∨ code > 4999 then false
  else if code = 1004 ∨ code = 1005 ∨ code = 1006 ∨ code = 1015 then false
  else true

/-- vox_ws_build_close_frame without a mask (vox_websocket.c:228-270). -/
def buildCloseFrame (alloc : ℕ → Bool) (code : ℕ) (reason : Bytes) : Option Bytes :=
  if ¬ isValidCloseCode code then none
  else if 0 < reason.length ∧ ¬ validateUtf8 reason then none
  else if reason.length > 123 then none
  else if ¬ alloc (2 + reason.length) then none
  else buildFrame alloc 0x8 (u16 code ++ reason) false fun _ => 0

structure Control where
  isPing : Bool
  payload : Bytes
  key : MaskKey
  short : payload.length ≤ 125

def Control.frame (c : Control) : Bytes :=
  frameBytes true (if c.isPing then 0x9 else 0xA) c.payload true c.key

/-- A fragment of a message, with the control frames in front of it. -/
structure Fragment where
  controls : List Control
  payload : Bytes
  key : MaskKey

def Fragment.frames (f : Fragment) (opcode : UInt8) (fin : Bool) : List Bytes :=
  f.controls.map Control.frame ++ [frameBytes fin opcode f.payload true f.key]

structure Message where
  isText : Bool
  first : Fragment
  more : List Fragment

def Message.payload (m : Message) : Bytes := m.first.payload ++ m.more.flatMap Fragment.payload

/- FIN is in the last frame, and the frames behind the first one are CONTINUATION frames. -/
def fragmentFrames (opcode : UInt8) (f : Fragment) : List Fragment → List Bytes
  | [] => f.frames opcode true
  | g :: rest => f.frames opcode false ++ fragmentFrames 0x0 g rest

def Message.frames (m : Message) : List Bytes :=
  fragmentFrames (if m.isText then 0x1 else 0x2) m.first m.more

/- The frames of a client, the last control frames of which are behind its last message. -/
def clientFrames (messages : List Message) (controls : List Control) : List Bytes :=
  messages.flatMap Message.frames ++ controls.map Control.frame

/- What a frame in front of the bytes `buf` is parsed to. -/
structure Fields (f : Frame) (buf : Bytes) (fin : Bool) (opcode : UInt8) (payload : Bytes)
    (masked : Bool) : Prop where
  fin : f.fin = fin
  opcode : f.opcode = opcode
  masked : f.masked = masked
  payloadLen : f.payloadLen = payload.length
  content : f.content buf = payload

variable {payload : Bytes}

theorem parseFrame_whole {fin : Bool} {opcode : UInt8} {masked : Bool} {key : MaskKey}
    (hop : opcode.toNat < 16) (hcontrol : 8 ≤ opcode.toNat → fin = true ∧ payload.length ≤ 125)
    (hmax : (frameBytes fin opcode payload masked key).length ≤ 2 ^ 31 - 1) (x : Bytes) :
    ∃ f, parseFrame (frameBytes fin opcode payload masked key ++ x) {} =
        (((frameBytes fin opcode payload masked key).length : ℤ), f) ∧
      Fields f (frameBytes fin opcode payload masked key ++ x) fin opcode payload masked :=
  ⟨_, (parseFrame_front hop hcontrol rfl hmax
    (List.append_nil (frameBytes fin opcode payload masked key ++ x)) {}).2 (by simp),
    rfl, rfl, rfl, rfl, content_parsed rfl x {}⟩

theorem parseFrame_part {fin : Bool} {opcode : UInt8} {masked : Bool} {key : MaskKey}
    (hop : opcode.toNat < 16) (hcontrol : 8 ≤ opcode.toNat → fin = true ∧ payload.length ≤ 125)
    (hmax : (frameBytes fin opcode payload masked key).length ≤ 2 ^ 31 - 1) {p x : Bytes}
    (hp : p ++ x = frameBytes fin opcode payload masked key) (hx : x ≠ []) :
    (parseFrame p {}).1 = 0 := by
  have hlen := congrArg List.length hp
  have hpos := List.length_pos_of_ne_nil hx
  rw [List.length_append] at hlen
  exact (parseFrame_front hop hcontrol rfl hmax
    (hp.trans (List.append_nil _).symm) {}).1 (by omega)

theorem takes_frame {S : Type*} {pass : S → Bytes → Flow S UInt8} {s t : S} {fin : Bool}
    {opcode : UInt8} {masked : Bool} {key : MaskKey} (hop : opcode.toNat < 16)
    (hcontrol : 8 ≤ opcode.toNat → fin = true ∧ payload.length ≤ 125)
    (hmax : (frameBytes fin opcode payload masked key).length ≤ 2 ^ 31 - 1)
    (hwait : ∀ cur, (parseFrame cur {}).1 = 0 → pass s cur = .wait s cur)
    (hgo : ∀ x f, parseFrame (frameBytes fin opcode payload masked key ++ x) {} =
        (((frameBytes fin opcode payload masked key).length : ℤ), f) →
      Fields f (frameBytes fin opcode payload masked key ++ x) fin opcode payload masked →
      pass s (frameBytes fin opcode payload masked key ++ x) = .go t x) :
    Takes pass s (frameBytes fin opcode payload masked key) t where
  nonempty := List.cons_ne_nil _ _
  whole x := by
    obtain ⟨f, hparse, hfields⟩ := parseFrame_whole hop hcontrol hmax x
    exact hgo x f hparse hfields
  part p _ hp hx := hwait p (parseFrame_part hop hcontrol hmax hp hx)

end Voxlib.WebSocket
