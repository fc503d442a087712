import Voxlib.Mqtt.Parser

/-!
# The parser and the pieces its input arrives in (vox_mqtt_parser_execute)
-/

namespace Voxlib.Mqtt
open CStr Wire Stream List

theorem remainingLengthLoop_eq (left v mult i : ℕ) (d : Bytes) :
    remainingLengthLoop left v mult i d = readVarint left v mult i d := by
  induction left generalizing v mult i d with
  | zero => rfl
  | succ left ih =>
    cases d with
    | nil => rfl
    | cons b rest =>
      simp only [remainingLengthLoop, readVarint]
      by_cases hb : b.toNat < 128
      · have hmod : b.toNat % 128 = b.toNat := Nat.mod_eq_of_lt hb
        rw [if_neg (by omega), if_pos hb, hmod]
      · rw [if_pos (by omega), if_neg hb]
        exact ih _ _ _ rest

theorem decodeRemainingLength_eq (d : Bytes) : decodeRemainingLength d = decodeVarint d :=
  remainingLengthLoop_eq 4 0 1 0 d

theorem decodeVarint_size {d : Bytes} {value size : ℕ} (h : decodeVarint d = .ok value size) :
    0 < size ∧ size ≤ d.length := by
  have := readVarint_size h
  omega

section
variable {σ : Type*} (cb : Callbacks σ) (alloc : ℕ → Bool)

variable {s : Parser × σ} {cur rest : Bytes}

theorem flow_decides {f : Parser × σ → Bytes → Flow (Parser × σ) UInt8} (hs : rest <:+ cur)
    (r : Turn σ) (h : ∀ x, f s (cur ++ x) = r.flow (rest ++ x)) : Decides f s cur := by
  cases r with
  | ok t => exact .go t rest hs h
  | error t => exact .fail t h

theorem fixedHeader_skip (h : s.1.state ≠ .fixedHeader) (cur : Bytes) :
    fixedHeader cb s cur = .go s cur := by
  unfold fixedHeader
  rw [if_neg h]

theorem fixedHeader_nil (h : s.1.state = .fixedHeader) : fixedHeader cb s [] = .wait s [] := by
  unfold fixedHeader
  rw [if_pos h]

theorem fixedHeader_cons (h : s.1.state = .fixedHeader) (b : UInt8) (rest : Bytes) :
    fixedHeader cb s (b :: rest) = (readType cb s b).flow rest := by
  unfold fixedHeader
  rw [if_pos h]

theorem fixedHeader_stage : Stage (fixedHeader cb) := by
  intro s cur
  by_cases hs : s.1.state = .fixedHeader
  · cases cur with
    | nil => exact .wait s [] (suffix_refl []) (fixedHeader_nil cb hs) fun x => rfl
    | cons b rest =>
      exact flow_decides (suffix_cons b rest) _ fun x => fixedHeader_cons cb hs b _
  · exact .go s cur (suffix_refl cur) fun x => fixedHeader_skip cb hs _

theorem remainingLen_skip (h : s.1.state ≠ .remainingLen) (cur : Bytes) :
    remainingLen cb alloc s cur = .go s cur := by
  unfold remainingLen
  rw [if_neg h]

theorem remainingLen_more (h : s.1.state = .remainingLen) (hd : decodeVarint cur = .more) :
    remainingLen cb alloc s cur = .wait s cur := by
  unfold remainingLen
  rw [if_pos h, decodeRemainingLength_eq, hd]

theorem remainingLen_bad (h : s.1.state = .remainingLen) (hd : decodeVarint cur = .bad) :
    remainingLen cb alloc s cur = .fail (setError cb s.1 s.2 "invalid remaining length") := by
  unfold remainingLen
  rw [if_pos h, decodeRemainingLength_eq, hd]

theorem remainingLen_ok (h : s.1.state = .remainingLen) {val size : ℕ}
    (hd : decodeVarint cur = .ok val size) :
    remainingLen cb alloc s cur = (startPacket cb alloc s val).flow (cur.drop size) := by
  unfold remainingLen
  rw [if_pos h, decodeRemainingLength_eq, hd]

theorem remainingLen_stage : Stage (remainingLen cb alloc) := by
  intro s cur
  by_cases hs : s.1.state = .remainingLen
  · cases hd : decodeVarint cur with
    | more =>
      exact .wait s cur (suffix_refl cur) (remainingLen_more cb alloc hs hd) fun x => rfl
    | bad =>
      exact .fail _ fun x => remainingLen_bad cb alloc hs (readVarint_bad_append hd x)
    | ok val size =>
      refine flow_decides (drop_suffix size cur) (startPacket cb alloc s val) fun x => ?_
      rw [remainingLen_ok cb alloc hs (readVarint_ok_append hd x),
        drop_append_of_le_length (decodeVarint_size hd).2]
  · exact .go s cur (suffix_refl cur) fun x => remainingLen_skip cb alloc hs _

theorem varheaderPayload_skip (h : s.1.state ≠ .varheaderPayload) (cur : Bytes) :
    varheaderPayload cb alloc s cur = .go s cur := by
  unfold varheaderPayload
  rw [if_neg h]

theorem collect_append (p : Parser) (a b : Bytes) :
    collect (collect p a) b = collect p (a ++ b) := by
  simp only [collect, append_assoc, length_append, Nat.sub_add_eq]

section
variable (h : s.1.state = .varheaderPayload)
include h

theorem varheaderPayload_full (hn : s.1.need ≤ cur.length) : varheaderPayload cb alloc s cur =
      (finishPacket cb alloc (collect s.1 (cur.take s.1.need)) s.2).flow (cur.drop s.1.need) := by
  have hmin : min cur.length s.1.need = s.1.need := Nat.min_eq_right hn
  have hdone : (collect s.1 (cur.take s.1.need)).need = 0 := by
    simp only [collect, length_take]
    omega
  unfold varheaderPayload
  simp only [h, if_true, hmin, hdone, ne_eq, not_true_eq_false, if_false]

theorem varheaderPayload_short (hn : cur.length < s.1.need) :
    varheaderPayload cb alloc s cur = .wait (collect s.1 cur, s.2) [] := by
  have hmin : min cur.length s.1.need = cur.length := Nat.min_eq_left (by omega)
  have hpos : (collect s.1 cur).need ≠ 0 := by
    simp only [collect]
    omega
  unfold varheaderPayload
  simp only [h, if_true, hmin, ne_eq, take_length, drop_length, hpos,
    not_false_eq_true]

theorem varheaderPayload_collect (hn : cur.length < s.1.need) (x : Bytes) :
    varheaderPayload cb alloc (collect s.1 cur, s.2) x =
      varheaderPayload cb alloc s (cur ++ x) := by
  have hneed : (collect s.1 cur, s.2).1.need = s.1.need - cur.length := rfl
  have hlen : (cur ++ x).length = cur.length + x.length := length_append
  have hstate : (collect s.1 cur, s.2).1.state = .varheaderPayload := h
  by_cases hx : s.1.need ≤ (cur ++ x).length
  · rw [varheaderPayload_full cb alloc h hx, varheaderPayload_full cb alloc hstate (by omega)]
    rw [hneed]
    dsimp only
    rw [collect_append, take_append, drop_append,
      take_of_length_le (by omega : cur.length ≤ s.1.need),
      drop_eq_nil_of_le (by omega : cur.length ≤ s.1.need), nil_append]
  · rw [varheaderPayload_short cb alloc h (by omega),
      varheaderPayload_short cb alloc hstate (by omega)]
    dsimp only
    rw [collect_append]

end

theorem varheaderPayload_stage : Stage (varheaderPayload cb alloc) := by
  intro s cur
  by_cases hs : s.1.state = .varheaderPayload
  · by_cases hn : s.1.need ≤ cur.length
    · refine flow_decides (drop_suffix s.1.need cur)
        (finishPacket cb alloc (collect s.1 (cur.take s.1.need)) s.2) fun x => ?_
      rw [varheaderPayload_full cb alloc hs (by rw [length_append]; omega),
        take_append_of_le_length hn, drop_append_of_le_length hn]
    · have hn' : cur.length < s.1.need := by omega
      exact .wait _ [] nil_suffix (varheaderPayload_short cb alloc hs hn') fun x =>
        varheaderPayload_collect cb alloc hs hn' x
  · exact .go s cur (suffix_refl cur) fun x => varheaderPayload_skip cb alloc hs _

variable {t : Parser × σ}

theorem flow_go {r : Turn σ} {rest' : Bytes} (h : r.flow rest = .go t rest') :
    r = .ok t ∧ rest = rest' := by
  cases r with
  | ok t' =>
    obtain ⟨rfl, rfl⟩ : t' = t ∧ rest = rest' := by simpa [Turn.flow] using h
    exact ⟨rfl, rfl⟩
  | error t' => simp [Turn.flow] at h

theorem flow_ne_wait (r : Turn σ) (rest rest' : Bytes) (t : Parser × σ) :
    r.flow rest ≠ .wait t rest' := by
  cases r with
  | ok t' => simp [Turn.flow]
  | error t' => simp [Turn.flow]

theorem readType_state {b : UInt8} (h : readType cb s b = .ok t) : t.1.state = .remainingLen := by
  unfold readType at h
  split at h
  · simp at h
  · dsimp only at h
    split at h
    · simp at h
    · obtain rfl := Except.ok.inj h
      rfl

variable {p : Parser}

theorem ensureBuf_fits {q : Parser} {need : ℕ} (h : ensureBuf alloc p need = some q) :
    ∃ c, need ≤ c ∧ q = { p with bufCap := c } := by
  unfold ensureBuf at h
  by_cases hcap : p.bufCap ≥ need
  · rw [if_pos hcap] at h
    exact ⟨p.bufCap, hcap, (Option.some.inj h).symm⟩
  · rw [if_neg hcap] at h
    simp only [Option.ite_none_left_eq_some, Option.ite_none_right_eq_some] at h
    obtain ⟨hroom, -, hq⟩ := h
    exact ⟨_, Nat.le_of_not_lt hroom, (Option.some.inj hq).symm⟩

theorem startPacket_cases {val : ℕ} (h : startPacket cb alloc s val = .ok t) : (val = 0 ∧ ∃ u, t =
      ({ s.1 with remainingLen := val, need := val, buf := [], state := .fixedHeader }, u)) ∨
    (0 < val ∧ ∃ c, val ≤ c ∧ t =
      ({ s.1 with
          remainingLen := val, need := val, buf := [], bufCap := c, state := .varheaderPayload },
        s.2)) := by
  unfold startPacket at h
  dsimp only at h
  split at h
  · simp at h
  · by_cases hzero : val = 0
    · rw [if_pos hzero] at h
      split at h
      · simp at h
      · exact Or.inl ⟨hzero, _, (Except.ok.inj h).symm⟩
    · rw [if_neg hzero] at h
      split at h
      · simp at h
      · next hq =>
        obtain ⟨c, hc, rfl⟩ := ensureBuf_fits alloc hq
        exact Or.inr ⟨Nat.pos_of_ne_zero hzero, c, hc, (Except.ok.inj h).symm⟩

theorem startPacket_error {val : ℕ} (h : startPacket cb alloc s val = .error t) :
    t.1.state = .error := by
  unfold startPacket at h
  dsimp only at h
  split at h
  · obtain rfl := Except.error.inj h
    rfl
  · split at h
    · split at h
      · obtain rfl := Except.error.inj h
        rfl
      · simp at h
    · split at h
      · obtain rfl := Except.error.inj h
        rfl
      · simp at h

theorem startPacket_state {val : ℕ} (h : startPacket cb alloc s val = .ok t) :
    t.1.state = .fixedHeader ∨ t.1.state = .varheaderPayload := by
  rcases startPacket_cases cb alloc h with ⟨-, u, rfl⟩ | ⟨-, c, -, rfl⟩
  · exact Or.inl rfl
  · exact Or.inr rfl

theorem finishPacket_state {u : σ} (h : finishPacket cb alloc p u = .ok t) :
    t.1.state = .fixedHeader := by
  unfold finishPacket at h
  dsimp only at h
  split at h
  · obtain rfl := Except.ok.inj h
    rfl
  · simp at h

theorem fixedHeader_go (h : fixedHeader cb s cur = .go t rest) :
    (t.1.state = .remainingLen ∧ rest.length < cur.length) ∨
      (s.1.state ≠ .fixedHeader ∧ t = s ∧ rest = cur) := by
  by_cases hs : s.1.state = .fixedHeader
  · cases cur with
    | nil => simp [fixedHeader_nil cb hs] at h
    | cons b cur =>
      rw [fixedHeader_cons cb hs] at h
      obtain ⟨ht, rfl⟩ := flow_go h
      exact Or.inl ⟨readType_state cb ht, by simp⟩
  · rw [fixedHeader_skip cb hs] at h
    obtain ⟨rfl, rfl⟩ : s = t ∧ cur = rest := by simpa using h
    exact Or.inr ⟨hs, rfl, rfl⟩

theorem remainingLen_go (h : remainingLen cb alloc s cur = .go t rest) :
    ((t.1.state = .fixedHeader ∨ t.1.state = .varheaderPayload) ∧ rest.length < cur.length) ∨
      (s.1.state ≠ .remainingLen ∧ t = s ∧ rest = cur) := by
  by_cases hs : s.1.state = .remainingLen
  · cases hd : decodeVarint cur with
    | more => simp [remainingLen_more cb alloc hs hd] at h
    | bad => simp [remainingLen_bad cb alloc hs hd] at h
    | ok val size =>
      rw [remainingLen_ok cb alloc hs hd] at h
      obtain ⟨ht, rfl⟩ := flow_go h
      have hsize := decodeVarint_size hd
      refine Or.inl ⟨startPacket_state cb alloc ht, ?_⟩
      rw [length_drop]
      omega
  · rw [remainingLen_skip cb alloc hs] at h
    obtain ⟨rfl, rfl⟩ : s = t ∧ cur = rest := by simpa using h
    exact Or.inr ⟨hs, rfl, rfl⟩

theorem varheaderPayload_go (h : varheaderPayload cb alloc s cur = .go t rest) :
    (s.1.state = .varheaderPayload ∧ t.1.state = .fixedHeader ∧ rest.length ≤ cur.length) ∨
      (s.1.state ≠ .varheaderPayload ∧ t = s ∧ rest = cur) := by
  by_cases hs : s.1.state = .varheaderPayload
  · by_cases hn : s.1.need ≤ cur.length
    · rw [varheaderPayload_full cb alloc hs hn] at h
      obtain ⟨ht, rfl⟩ := flow_go h
      refine Or.inl ⟨hs, finishPacket_state cb alloc ht, ?_⟩
      rw [length_drop]
      omega
    · simp [varheaderPayload_short cb alloc hs (by omega : cur.length < s.1.need)] at h
  · rw [varheaderPayload_skip cb alloc hs] at h
    obtain ⟨rfl, rfl⟩ : s = t ∧ cur = rest := by simpa using h
    exact Or.inr ⟨hs, rfl, rfl⟩

theorem fixedHeader_wait (h : fixedHeader cb s cur = .wait t rest) : t.1.state = .fixedHeader := by
  by_cases hs : s.1.state = .fixedHeader
  · cases cur with
    | nil =>
      rw [fixedHeader_nil cb hs] at h
      obtain ⟨rfl, -⟩ : s = t ∧ [] = rest := by simpa using h
      exact hs
    | cons b cur =>
      rw [fixedHeader_cons cb hs] at h
      exact absurd h (flow_ne_wait _ _ _ _)
  · simp [fixedHeader_skip cb hs] at h

theorem remainingLen_wait (h : remainingLen cb alloc s cur = .wait t rest) :
    t.1.state = .remainingLen := by
  by_cases hs : s.1.state = .remainingLen
  · cases hd : decodeVarint cur with
    | more =>
      rw [remainingLen_more cb alloc hs hd] at h
      obtain ⟨rfl, -⟩ : s = t ∧ cur = rest := by simpa using h
      exact hs
    | bad => simp [remainingLen_bad cb alloc hs hd] at h
    | ok val size =>
      rw [remainingLen_ok cb alloc hs hd] at h
      exact absurd h (flow_ne_wait _ _ _ _)
  · simp [remainingLen_skip cb alloc hs] at h

theorem varheaderPayload_wait (h : varheaderPayload cb alloc s cur = .wait t rest) :
    t.1.state = .varheaderPayload := by
  by_cases hs : s.1.state = .varheaderPayload
  · by_cases hn : s.1.need ≤ cur.length
    · rw [varheaderPayload_full cb alloc hs hn] at h
      exact absurd h (flow_ne_wait _ _ _ _)
    · rw [varheaderPayload_short cb alloc hs (by omega)] at h
      obtain ⟨rfl, -⟩ : (collect s.1 cur, s.2) = t ∧ [] = rest := by simpa using h
      exact hs
  · simp [varheaderPayload_skip cb alloc hs] at h

theorem pass_stage : Stage (pass cb alloc) := by
  have hlen : Stage fun s cur => (fixedHeader cb s cur).andThen (remainingLen cb alloc) := by
    refine (fixedHeader_stage cb).andThen (remainingLen_stage cb alloc) fun h y => ?_
    exact fixedHeader_skip cb (by simp [remainingLen_wait cb alloc h]) y
  refine hlen.andThen (varheaderPayload_stage cb alloc) fun {s cur t rest} h y => ?_
  have hstate := varheaderPayload_wait cb alloc h
  rw [fixedHeader_skip cb (by simp [hstate]), Flow.go_andThen,
    remainingLen_skip cb alloc (by simp [hstate])]

def Parser.live (p : Parser) : Prop := p.state ≠ .error

def Parser.rank (p : Parser) : ℕ := if p.state = .varheaderPayload then 1 else 0

theorem pass_go (hs : s.1.live) (h : pass cb alloc s cur = .go t rest) :
    t.1.state = .fixedHeader ∧ rest.length < cur.length + s.1.rank := by
  unfold pass at h
  cases h₁ : fixedHeader cb s cur with
  | wait t' rest' => simp [h₁] at h
  | fail t' => simp [h₁] at h
  | go s₁ c₁ =>
    rw [h₁, Flow.go_andThen] at h
    cases h₂ : remainingLen cb alloc s₁ c₁ with
    | wait t' rest' => simp [h₂] at h
    | fail t' => simp [h₂] at h
    | go s₂ c₂ =>
      rw [h₂, Flow.go_andThen] at h
      unfold Parser.live at hs
      unfold Parser.rank
      rcases fixedHeader_go cb h₁ with ⟨hst₁, hlt₁⟩ | ⟨hst₁, rfl, rfl⟩
      · rcases remainingLen_go cb alloc h₂ with ⟨hst₂, hlt₂⟩ | ⟨hst₂, -, -⟩
        · rcases varheaderPayload_go cb alloc h with ⟨-, hst, hle⟩ | ⟨hne, rfl, rfl⟩
          · exact ⟨hst, by omega⟩
          · exact ⟨hst₂.resolve_right hne, by omega⟩
        · exact absurd hst₁ hst₂
      · rcases remainingLen_go cb alloc h₂ with ⟨hst₂, hlt₂⟩ | ⟨hst₂, rfl, rfl⟩
        · rcases varheaderPayload_go cb alloc h with ⟨-, hst, hle⟩ | ⟨hne, rfl, rfl⟩
          · exact ⟨hst, by omega⟩
          · exact ⟨hst₂.resolve_right hne, by omega⟩
        · rcases varheaderPayload_go cb alloc h with ⟨hv, hst, hle⟩ | ⟨hne, rfl, rfl⟩
          · rw [if_pos hv]
            exact ⟨hst, by omega⟩
          · exfalso
            cases hp : t.1.state with
            | fixedHeader => exact hst₁ hp
            | remainingLen => exact hst₂ hp
            | varheaderPayload => exact hne hp
            | error => exact hs hp

theorem pass_wait (h : pass cb alloc s cur = .wait t rest) : t.1.live := by
  unfold Parser.live
  unfold pass at h
  cases h₁ : fixedHeader cb s cur with
  | fail t' => simp [h₁] at h
  | wait t' rest' =>
    obtain ⟨rfl, -⟩ : t' = t ∧ rest' = rest := by simpa [h₁] using h
    simp [fixedHeader_wait cb h₁]
  | go s₁ c₁ =>
    rw [h₁, Flow.go_andThen] at h
    cases h₂ : remainingLen cb alloc s₁ c₁ with
    | fail t' => simp [h₂] at h
    | wait t' rest' =>
      obtain ⟨rfl, -⟩ : t' = t ∧ rest' = rest := by simpa [h₂] using h
      simp [remainingLen_wait cb alloc h₂]
    | go s₂ c₂ =>
      rw [h₂, Flow.go_andThen] at h
      simp [varheaderPayload_wait cb alloc h]

theorem pass_incremental : Incremental (pass cb alloc) (fun s => s.1.live) (fun s => s.1.rank) where
  stage := pass_stage cb alloc
  live_go := by
    intro s cur t rest hs h
    simp [Parser.live, (pass_go cb alloc hs h).1]
  live_wait := fun _ h => pass_wait cb alloc h
  falls := by
    intro s cur t rest hs h
    obtain ⟨hst, hlt⟩ := pass_go cb alloc hs h
    have hrank : t.1.rank = 0 := by simp [Parser.rank, hst]
    omega

abbrev settled (s : Parser × σ) (data : Bytes) : Flow (Parser × σ) UInt8 :=
  settle (pass cb alloc) (fun s => s.1.rank) s data

theorem execute_eq (hp : p.live) (u : σ) (data : Bytes) :
    execute cb alloc p u data = .ofFlow data.length (settled cb alloc (p, u) data) := by
  have hrank : p.rank ≤ 1 := by
    unfold Parser.rank
    split
    · exact le_refl 1
    · exact Nat.zero_le 1
  have henough : passes (pass cb alloc) (data.length + 2) (p, u) data
      = settled cb alloc (p, u) data :=
    passes_eq_settle (pass_incremental cb alloc).falling hp (by dsimp only; omega)
  unfold execute
  rw [if_neg hp, henough]

/- A parser no call of which has failed: with nothing to read it waits. -/
def Parser.ready (p : Parser) : Prop :=
  p.live ∧ (p.state = .varheaderPayload → 0 < p.need)

theorem create_ready (maxPayload version : ℕ) : (create alloc maxPayload version).ready := by
  constructor
  · simp [Parser.live, create]
  · intro h
    simp [create] at h

theorem pass_nil (hp : p.ready) (u : σ) : pass cb alloc (p, u) [] = .wait (p, u) [] := by
  obtain ⟨hlive, hneed⟩ := hp
  unfold pass
  cases hs : p.state with
  | fixedHeader => rw [fixedHeader_nil cb hs, Flow.wait_andThen, Flow.wait_andThen]
  | remainingLen =>
    rw [fixedHeader_skip cb (by simp [hs]), Flow.go_andThen,
      remainingLen_more cb alloc hs rfl, Flow.wait_andThen]
  | varheaderPayload =>
    have hcollect : collect p [] = p := by simp [collect]
    rw [fixedHeader_skip cb (by simp [hs]), Flow.go_andThen,
      remainingLen_skip cb alloc (by simp [hs]), Flow.go_andThen,
      varheaderPayload_short cb alloc hs (by simpa using hneed hs), hcollect]
  | error => exact absurd hs hlive

theorem settled_nil (hp : p.ready) (u : σ) : settled cb alloc (p, u) [] = .wait (p, u) [] := by
  unfold settled
  rw [settle_eq (pass_incremental cb alloc).falling hp.1, pass_nil cb alloc hp, Flow.wait_andThen]

/- The pieces one after the other: what a call reports as not consumed stands in front of the
   next piece, and the first error ends it. `ret` is the total of the bytes consumed. -/
def executePieces : Parser → σ → (left : Bytes) → (total : ℕ) → List Bytes → Executed σ
  | p, u, _, total, [] => ⟨some total, p, u⟩
  | p, u, left, total, piece :: pieces =>
    let r := execute cb alloc p u (left ++ piece)
    match r.ret with
    | none => r
    | some n => executePieces r.p r.u ((left ++ piece).drop n) (total + n) pieces

theorem drop_suffix_eq {left data : Bytes} (h : left <:+ data) :
    data.drop (data.length - left.length) = left := by
  obtain ⟨front, rfl⟩ := h
  have hlen : (front ++ left).length - left.length = front.length := by
    rw [length_append]
    omega
  rw [hlen, drop_left]

def Executed.plus (r : Executed σ) (n : ℕ) : Executed σ := { r with ret := r.ret.map (n + ·) }

theorem Executed.plus_zero (r : Executed σ) : r.plus 0 = r := by
  cases r with
  | mk ret p u => cases ret <;> simp [Executed.plus]

theorem executePieces_eq (hp : p.live) (u : σ) (left : Bytes) (total : ℕ) (pieces : List Bytes) :
    executePieces cb alloc p u left total pieces = (Executed.ofFlow (left ++ pieces.flatten).length
        (deliver (settled cb alloc) (p, u) left pieces)).plus total := by
  have hinc := pass_incremental cb alloc
  induction pieces generalizing p u left total with
  | nil => simp [executePieces, deliver, Executed.ofFlow, Executed.plus]
  | cons piece pieces ih =>
    simp only [executePieces, deliver, execute_eq cb alloc hp]
    cases hc : settled cb alloc (p, u) (left ++ piece) with
    | go t rest => exact absurd hc (settle_ne_go hinc.falling hp _ t rest)
    | fail t => rfl
    | wait t rest =>
      obtain ⟨ht, hsuf⟩ := settle_wait hinc hp hc
      have hle : rest.length ≤ (left ++ piece).length := hsuf.length_le
      simp only [Executed.ofFlow]
      rw [drop_suffix_eq hsuf, ih ht]
      cases hd : deliver (settled cb alloc) t rest pieces with
      | go t' rest' => exact absurd hd (deliver_ne_go hinc ht _ _ t' rest')
      | fail t' => rfl
      | wait t' rest' =>
        have hle' : rest'.length ≤ (rest ++ pieces.flatten).length :=
          (deliver_suffix hinc ht hd).length_le
        simp only [Executed.ofFlow, Executed.plus, Option.map_some, Executed.mk.injEq,
          Option.some.injEq, and_true]
        simp only [flatten_cons, length_append] at hle hle' ⊢
        omega

end

def Callbacks.logged {σ : Type*} (cb : Callbacks σ) : Callbacks (σ × List Call) where
  installed := cb.installed
  run u c := ((cb.run u.1 c).1, ((cb.run u.1 c).2, u.2 ++ [c]))

/-- Pieces of any size, with the bytes a call did not consume put in front of the next piece, make
the same calls in the same order, end with the same result and the same number of bytes consumed,
and leave the same parser as one call with all the bytes. -/
theorem segments_same {σ : Type*} (cb : Callbacks σ) (alloc : ℕ → Bool) {p : Parser}
    (hp : p.ready) (u : σ) (pieces : List Bytes) :
    executePieces cb.logged alloc p (u, []) [] 0 pieces =
      execute cb.logged alloc p (u, []) pieces.flatten := by
  have hinc := pass_incremental cb.logged alloc
  have hidle := settled_nil cb.logged alloc hp (u, [])
  rw [executePieces_eq cb.logged alloc hp.1, execute_eq cb.logged alloc hp.1,
    deliver_eq_settle hinc hp.1 hidle, nil_append, Executed.plus_zero]

def willing : Callbacks Unit := ⟨fun _ => true, fun _ _ => (0, ())⟩

/-- A PUBLISH cut inside its topic and a PINGREQ cut behind its first byte. -/
theorem publish_in_pieces :
    executePieces willing.logged (fun _ => true) (create (fun _ => true) 0 4) ((), []) [] 0
        [[0x30, 4, 0], [1, 97, 98, 0xC0], [0]] =
      execute willing.logged (fun _ => true) (create (fun _ => true) 0 4) ((), [])
        [0x30, 4, 0, 1, 97, 98, 0xC0, 0] :=
  segments_same willing (fun _ => true) (create_ready (fun _ => true) 0 4) ()
    [[0x30, 4, 0], [1, 97, 98, 0xC0], [0]]

end Voxlib.Mqtt
