import Voxlib.Lib.Crc
import Voxlib.Lib.Wire

/-!
# CRC-32 (vox_crypto.c)

A piece is given by the address of its first byte and its bytes; words are read where the
address is aligned.
-/

namespace Voxlib.Crypto
open CStr Wire Crc List

def crc32TableStep (crc : BitVec 32) : BitVec 32 :=
  if crc &&& 1 ≠ 0 then (crc >>> 1) ^^^ 0xEDB88320 else crc >>> 1

/- crc32_table, which is computed before it is first read (vox_crypto.c:1057-1074). -/
def crc32Table : List (BitVec 32) := (List.range 256).map fun i =>
  (List.range 8).foldl (fun crc _ => crc32TableStep crc) (BitVec.ofNat 32 i)

/- vox_crc32_init -/
def crc32Init : BitVec 32 := 0xFFFFFFFF

def crc32Byte (crc : BitVec 32) (byte : UInt8) : BitVec 32 :=
  (crc >>> 8) ^^^ crc32Table.getD ((crc ^^^ BitVec.ofNat 32 byte.toNat) &&& 0xFF).toNat 0

def crc32Align : ℕ → BitVec 32 → Bytes → BitVec 32 × Bytes
  | _, crc, [] => (crc, [])
  | address, crc, byte :: rest =>
    if address &&& 3 ≠ 0 then crc32Align (address + 1) (crc32Byte crc byte) rest
    else (crc, byte :: rest)

def crc32WordStep (crc : BitVec 32) : BitVec 32 :=
  (crc >>> 8) ^^^ crc32Table.getD (crc &&& 0xFF).toNat 0

def crc32Words : BitVec 32 → Bytes → BitVec 32 × Bytes
  | crc, a :: b :: c :: d :: rest =>
    let crc := crc ^^^ BitVec.ofNat 32 (ofU32 d c b a)
    crc32Words (crc32WordStep (crc32WordStep (crc32WordStep (crc32WordStep crc)))) rest
  | crc, rest => (crc, rest)

/- vox_crc32_update -/
def crc32Update (crc : BitVec 32) (address : ℕ) (data : Bytes) : BitVec 32 :=
  let (crc, rest) := crc32Align address crc data
  let (crc, rest) := crc32Words crc rest
  rest.foldl crc32Byte crc

/- vox_crc32_final -/
def crc32Final (crc : BitVec 32) : BitVec 32 := crc ^^^ 0xFFFFFFFF

/- vox_crc32 -/
def crc32 (address : ℕ) (data : Bytes) : BitVec 32 :=
  crc32Final (crc32Update crc32Init address data)

def crc32Poly : BitVec 32 := 0xEDB88320

/-- The bits of a message in the order in which they are sent. -/
def messageBits (data : Bytes) : List Bool := data.flatMap fun byte => lowBits 8 byte.toNat

def crc32BitSerial (data : Bytes) : BitVec 32 :=
  serial crc32Poly 0xFFFFFFFF (messageBits data) ^^^ 0xFFFFFFFF

def crc32Bytewise (data : Bytes) : BitVec 32 := data.foldl crc32Byte 0xFFFFFFFF ^^^ 0xFFFFFFFF

variable (x : BitVec 32)

theorem crc32TableStep_eq : crc32TableStep x = step crc32Poly x := by
  have hbit : x &&& 1 ≠ 0 ↔ x.getLsbD 0 = true := by
    rw [show (1 : BitVec 32) = 1#32 from rfl, BitVec.and_one_eq_setWidth_ofBool_getLsbD]
    cases x.getLsbD 0 <;> decide
  simp only [crc32TableStep, step, hbit]
  rfl

theorem crc32Table_getD {i : ℕ} (h : i < 256) :
    crc32Table.getD i 0 = steps crc32Poly 8 (BitVec.ofNat 32 i) := by
  rw [crc32Table, getD_eq_getElem?_getD, List.getElem?_map, List.getElem?_range h]
  simp only [crc32TableStep_eq]
  rfl

theorem and_255_lt : (x &&& 0xFF).toNat < 256 := by
  rw [BitVec.toNat_and]
  exact Nat.and_lt_two_pow (n := 8) _ (by decide)

theorem crc32WordStep_eq : crc32WordStep x = steps crc32Poly 8 x := by
  rw [crc32WordStep, crc32Table_getD (and_255_lt x), BitVec.ofNat_toNat, BitVec.setWidth_eq,
    steps_split crc32Poly 8 x]
  rfl

theorem crc32Byte_eq (byte : UInt8) :
    crc32Byte x byte = serial crc32Poly x (lowBits 8 byte.toNat) := by
  have hbyte := byte.toNat_lt
  have hdown : BitVec.ofNat 32 byte.toNat >>> 8 = 0#32 := by
    refine BitVec.eq_of_toNat_eq ?_
    rw [BitVec.toNat_ushiftRight, BitVec.toNat_ofNat, Nat.mod_eq_of_lt (by omega),
      Nat.shiftRight_eq_div_pow, BitVec.toNat_ofNat]
    omega
  rw [serial_lowBits crc32Poly x hbyte (by decide), ← crc32WordStep_eq, crc32WordStep, crc32Byte,
    BitVec.ushiftRight_xor_distrib, hdown, BitVec.xor_zero]

theorem foldl_crc32Byte (data : Bytes) :
    data.foldl crc32Byte x = serial crc32Poly x (messageBits data) := by
  induction data generalizing x with
  | nil => rfl
  | cons byte rest ih =>
    rw [foldl_cons, ih, crc32Byte_eq, ← serial_append]
    rfl

theorem lowBits_word (a b c d : UInt8) : lowBits 32 (ofU32 d c b a) = messageBits [a, b, c, d] := by
  have ha := a.toNat_lt
  have hb := b.toNat_lt
  have hc := c.toNat_lt
  have hword : ofU32 d c b a =
      a.toNat + 2 ^ 8 * (b.toNat + 2 ^ 8 * (c.toNat + 2 ^ 8 * d.toNat)) := by
    unfold ofU32
    omega
  rw [hword, show 32 = 8 + (8 + (8 + 8)) from rfl, lowBits_add ha, lowBits_add hb, lowBits_add hc]
  simp only [messageBits, flatMap_cons, flatMap_nil, append_nil]

variable (crc : BitVec 32)

theorem crc32Word_eq (a b c d : UInt8) : crc32WordStep (crc32WordStep (crc32WordStep (crc32WordStep
      (crc ^^^ BitVec.ofNat 32 (ofU32 d c b a))))) = [a, b, c, d].foldl crc32Byte crc := by
  have hword : ofU32 d c b a < 2 ^ 32 := by
    have ha := a.toNat_lt
    have hb := b.toNat_lt
    have hc := c.toNat_lt
    have hd := d.toNat_lt
    unfold ofU32
    omega
  have hsteps (x : BitVec 32) : crc32WordStep (crc32WordStep (crc32WordStep (crc32WordStep x))) =
      steps crc32Poly 32 x := by
    simp only [crc32WordStep_eq, ← steps_add]
  rw [hsteps, ← serial_lowBits crc32Poly crc hword (le_refl 32), lowBits_word, foldl_crc32Byte]

theorem crc32Words_eq (data : Bytes) :
    (crc32Words crc data).2.foldl crc32Byte (crc32Words crc data).1 = data.foldl crc32Byte crc := by
  induction crc, data using crc32Words.induct with
  | case1 crc a b c d rest word ih =>
    rw [crc32Words, ih, crc32Word_eq]
    rfl
  | case2 crc rest h =>
    rw [crc32Words]
    exact h

theorem crc32Align_eq (address : ℕ) (crc : BitVec 32) (data : Bytes) :
    (crc32Align address crc data).2.foldl crc32Byte (crc32Align address crc data).1 =
      data.foldl crc32Byte crc := by
  induction data generalizing address crc with
  | nil => rfl
  | cons byte rest ih =>
    rw [crc32Align]
    split
    · exact ih _ _
    · rfl

theorem crc32Update_eq (address : ℕ) (data : Bytes) :
    crc32Update crc address data = data.foldl crc32Byte crc := by
  rw [crc32Update, ← crc32Align_eq address, ← crc32Words_eq]

theorem crc32Update_pieces (pieces : List (ℕ × Bytes)) :
    pieces.foldl (fun crc piece => crc32Update crc piece.1 piece.2) crc =
      (pieces.map Prod.snd).flatten.foldl crc32Byte crc := by
  induction pieces generalizing crc with
  | nil => rfl
  | cons piece rest ih =>
    rw [foldl_cons, ih, crc32Update_eq, map_cons, flatten_cons, foldl_append]

/-- The checksum of a message in any pieces at any addresses is the one byte by byte, and the one
bit by bit. -/
theorem crc32_pieces (pieces : List (ℕ × Bytes)) :
    crc32Final (pieces.foldl (fun crc piece => crc32Update crc piece.1 piece.2) crc32Init) =
        crc32Bytewise (pieces.map Prod.snd).flatten ∧ crc32Bytewise (pieces.map Prod.snd).flatten =
        crc32BitSerial (pieces.map Prod.snd).flatten := by
  constructor
  · rw [crc32Update_pieces]
    rfl
  · rw [crc32Bytewise, foldl_crc32Byte]
    rfl

/-- Two messages that differ within 32 consecutive bits only have different checksums, in whatever
pieces and at whatever addresses they come. -/
theorem crc32_burst {pieces pieces' : List (ℕ × Bytes)} {front b b' back : List Bool}
    (h : messageBits (pieces.map Prod.snd).flatten = front ++ b ++ back)
    (h' : messageBits (pieces'.map Prod.snd).flatten = front ++ b' ++ back)
    (hlen : b.length = b'.length) (hle : b.length ≤ 32) (hne : b ≠ b') :
    crc32Final (pieces.foldl (fun crc piece => crc32Update crc piece.1 piece.2) crc32Init) ≠
      crc32Final (pieces'.foldl (fun crc piece => crc32Update crc piece.1 piece.2) crc32Init) := by
  have hpoly : crc32Poly.getLsbD (32 - 1) = true := by decide
  intro heq
  have hsame := (BitVec.xor_left_inj _).mp heq
  rw [crc32Update_pieces, crc32Update_pieces, foldl_crc32Byte, foldl_crc32Byte, h, h',
    serial_append, serial_append, serial_append, serial_append] at hsame
  exact hne (serial_burst hpoly hlen hle (serial_inj hpoly back (by decide) hsame))

theorem crc32_burst_bit : crc32Final (crc32Update crc32Init 0 [97]) ≠
    crc32Final (crc32Update crc32Init 3 [99]) :=
  @crc32_burst [(0, [97])] [(3, [99])] [true] [false] [true]
    [false, false, false, true, true, false] (by decide) (by decide) rfl (by decide) (by decide)

/-- The check value of the polynomial. -/
example : crc32BitSerial (lit "123456789") = 0xCBF43926 := by decide +kernel

end Voxlib.Crypto
