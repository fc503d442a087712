import Voxlib.Json
import Voxlib.Lib.Buffer

/-!
# Serializing into a buffer

The buffer gets each piece that ends in front of its last cell, a shorter one also behind one
that did not fit.
-/

namespace Voxlib.Json
open CStr Buffer List

/- vox_json_serialize_ctx_t without a string; no buffer is NULL. -/
structure Sink where
  buf : Option Bytes
  used : ℕ

/-- serialize_append; `none` is a write outside the cells of the buffer. -/
def serializeAppend (size : ℕ) (ctx : Sink) (text : Bytes) : Option Sink :=
  match ctx.buf with
  | none => some ⟨none, ctx.used + text.length⟩
  | some buf =>
    if ctx.used + text.length < size then
      (blit buf ctx.used text).map fun buf => ⟨some buf, ctx.used + text.length⟩
    else some ⟨some buf, ctx.used + text.length⟩

/-- vox_json_serialize (vox_json.c:1070-1092): what it returns, the buffer and `*written`. -/
def jsonSerialize (env : Env) (elem : Option Elem) (buffer : Option Bytes) (size : ℕ)
    (pretty : Bool) : Option (ℤ × Option Bytes × ℕ) := do
  let pieces :=
    match elem with
    | none => [lit "null"]
    | some elem => serializeValue env pretty 0 elem
  let ctx ← pieces.foldlM (serializeAppend size) ⟨buffer, 0⟩
  match ctx.buf with
  | none => some (0, none, ctx.used)
  | some buf =>
    if ctx.used < size then (blit buf ctx.used [0]).map fun buf => (0, some buf, ctx.used)
    else if 0 < size then (blit buf 0 [0]).map fun buf => (-1, some buf, ctx.used)
    else some (0, some buf, ctx.used)

theorem blit_some {b cells : Bytes} {off : ℕ} (h : off + cells.length ≤ b.length) :
    ∃ b', blit b off cells = some b' ∧ b'.length = b.length := by
  refine ⟨_, if_pos h, ?_⟩
  rw [length_append, length_append, length_take, length_drop]
  omega

theorem appends_null (size used : ℕ) (pieces : List Bytes) :
    pieces.foldlM (serializeAppend size) ⟨none, used⟩ =
      some ⟨none, used + pieces.flatten.length⟩ := by
  induction pieces generalizing used with
  | nil => rfl
  | cons p pieces ih =>
    rw [foldlM_cons, flatten_cons, length_append, ← Nat.add_assoc]
    exact ih _

theorem appends_some (buf : Bytes) (used : ℕ) (pieces : List Bytes) :
    ∃ buf', pieces.foldlM (serializeAppend buf.length) ⟨some buf, used⟩ =
      some ⟨some buf', used + pieces.flatten.length⟩ ∧ buf'.length = buf.length := by
  induction pieces generalizing buf used with
  | nil => exact ⟨buf, rfl, rfl⟩
  | cons p pieces ih =>
    rw [foldlM_cons, flatten_cons, length_append, ← Nat.add_assoc, serializeAppend]
    dsimp only
    split_ifs with hfits
    · obtain ⟨next, hnext, hlen⟩ := @blit_some buf p used hfits.le
      rw [hnext, ← hlen]
      exact ih next _
    · exact ih buf _

theorem appends_fit (l r : Bytes) (pieces : List Bytes) (h : pieces.flatten.length < r.length) :
    pieces.foldlM (serializeAppend (l ++ r).length) ⟨some (l ++ r), l.length⟩ =
      some ⟨some (l ++ (pieces.flatten ++ r.drop pieces.flatten.length)),
        l.length + pieces.flatten.length⟩ := by
  induction pieces generalizing l r with
  | nil => rfl
  | cons p pieces ih =>
    rw [flatten_cons, length_append] at h
    have hblit := blit_append (l := l) (x := p) (r := r) (by omega)
    have hsame : (l ++ r).length = (l ++ p ++ r.drop p.length).length := by
      simp only [length_append, length_drop]
      omega
    have hrest := ih (l ++ p) (r.drop p.length) (by rw [length_drop]; omega)
    rw [← hsame, append_assoc] at hrest
    have hstep : serializeAppend (l ++ r).length ⟨some (l ++ r), l.length⟩ p =
        some ⟨some (l ++ (p ++ r.drop p.length)), (l ++ p).length⟩ := by
      rw [serializeAppend]
      dsimp only
      rw [if_pos (by rw [length_append]; omega), hblit, length_append]
      rfl
    rw [foldlM_cons, hstep]
    refine hrest.trans ?_
    rw [flatten_cons, length_append, length_append, drop_drop,
      append_assoc, append_assoc, Nat.add_assoc]

/-- What vox_json_serialize does with a buffer and without one, against the text of
vox_json_to_string when there is memory for it. -/
theorem jsonSerialize_agrees (env : Env) (elem : Option Elem) (pretty : Bool) :
    let env := { env with grow := fun _ => true }
    let text := jsonToString env elem pretty
    (∀ size, jsonSerialize env elem none size pretty = some (0, none, text.length)) ∧
    ∀ buf : Bytes, ∃ ret buf', buf'.length = buf.length ∧
      jsonSerialize env elem (some buf) buf.length pretty = some (ret, some buf', text.length) ∧
      (text.length < buf.length → ret = 0 ∧ buf'.take (text.length + 1) = text ++ [0]) ∧
      (0 < buf.length → buf.length ≤ text.length → ret = -1) := by
  intro env text
  obtain ⟨pieces, hpieces⟩ : ∃ pieces : List Bytes, (match elem with
    | none => [lit "null"]
    | some elem => serializeValue env pretty 0 elem) = pieces := by cases elem <;> exact ⟨_, rfl⟩
  have htext : text = pieces.flatten := by
    rw [← hpieces]
    exact appendAll_eq (fun _ => rfl) _
  unfold jsonSerialize
  rw [hpieces, htext]
  dsimp only
  refine ⟨fun size => ?_, fun buf => ?_⟩
  · rw [appends_null, Nat.zero_add]
    rfl
  · by_cases hfits : pieces.flatten.length < buf.length
    · have hrun := appends_fit [] buf pieces hfits
      have hblit := blit_append (l := pieces.flatten) (x := [0])
        (r := buf.drop pieces.flatten.length) (by rw [length_drop, length_singleton]; omega)
      simp only [nil_append, length_nil, Nat.zero_add] at hrun
      refine ⟨0, pieces.flatten ++ ([0] ++ (buf.drop pieces.flatten.length).drop 1), ?_, ?_,
        fun _ => ⟨rfl, ?_⟩, fun _ h => absurd hfits (Nat.not_lt.mpr h)⟩
      · simp only [length_append, length_drop, length_singleton]
        omega
      · simp only [hrun, bind, Option.bind_some, if_pos hfits, hblit, Option.map_some,
          length_singleton]
      · rw [← append_assoc]
        exact take_left' (by simp)
    · obtain ⟨next, hrun, hlen⟩ := appends_some buf 0 pieces
      rw [Nat.zero_add] at hrun
      simp only [hrun, bind, Option.bind_some, if_neg hfits]
      by_cases hsize : 0 < buf.length
      · obtain ⟨last, hlast, hsame⟩ := @blit_some next [0] 0
          (by rw [length_singleton]; omega)
        exact ⟨-1, last, hsame.trans hlen, by rw [if_pos hsize, hlast]; rfl, fun h => absurd h hfits,
          fun _ _ => rfl⟩
      · exact ⟨0, next, hlen, by rw [if_neg hsize], fun h => absurd h hfits,
          fun h => absurd h hsize⟩

end Voxlib.Json
