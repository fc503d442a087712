import Mathlib.Data.List.TakeWhile
import Voxlib.Http.Middleware
import Voxlib.Lib.Ring

/-!
# The rate limiter over many requests (vox_http_middleware.c:575-758)

The record of a client is a ring with the newest of its request times.
-/

namespace Voxlib.Http
open CStr List

def fresh (kept : List ℤ) (start : ℤ) : List ℤ := kept.dropWhile (· < start)

variable {r : RateRecord} {kept past : List ℤ} {now windowMs start : ℤ}

theorem fresh_split (kept : List ℤ) (start : ℤ) :
    ∃ old, kept = old ++ fresh kept start ∧ ∀ x ∈ old, x < start := by
  refine ⟨kept.takeWhile (· < start), takeWhile_append_dropWhile.symm, fun x hx => ?_⟩
  simpa using mem_takeWhile_imp hx

theorem fresh_in (hsorted : kept.Pairwise (· ≤ ·)) : ∀ x ∈ fresh kept start, start ≤ x := by
  induction kept with
  | nil => nofun
  | cons a kept ih =>
    obtain ⟨hfirst, hrest⟩ := pairwise_cons.mp hsorted
    unfold fresh
    by_cases ha : a < start
    · rw [dropWhile_cons_of_pos (by simpa using ha)]
      exact ih hrest
    · rw [dropWhile_cons_of_neg (by simpa using ha)]
      intro x hx
      rcases mem_cons.mp hx with rfl | hx
      · exact not_lt.mp ha
      · exact (not_lt.mp ha).trans (hfirst x hx)

def windowCount (times : List ℤ) (start : ℤ) : ℕ := times.countP (start ≤ ·)

theorem windowCount_fresh (hsorted : kept.Pairwise (· ≤ ·)) :
    windowCount kept start = (fresh kept start).length := by
  obtain ⟨old, hsplit, hold⟩ := fresh_split kept start
  have hnone : old.countP (start ≤ ·) = 0 :=
    countP_eq_zero.mpr fun x hx => by simpa using hold x hx
  have hall : (fresh kept start).countP (start ≤ ·) = (fresh kept start).length :=
    countP_eq_length.mpr fun x hx => by simpa using fresh_in hsorted x hx
  rw [windowCount]
  conv_lhs => rw [hsplit]
  rw [countP_append, hnone, hall, Nat.zero_add]

/-- The ring holds these times, the oldest first. -/
structure RateRecord.Keeps (r : RateRecord) (kept : List ℤ) : Prop where
  size : kept.length = r.count
  holds : Ring.Holds (fun i => some (r.timestamps i)) maxTimestamps r.head kept

theorem RateRecord.Keeps.at (h : r.Keeps kept) {i : ℕ} (hi : i < kept.length) : r.at i = kept[i] :=
  Option.some.inj (h.holds i kept[i] (List.getElem?_eq_getElem hi))

theorem valid_eq (h : r.Keeps kept) (hsorted : kept.Pairwise (· ≤ ·)) {old : List ℤ}
    (hsplit : kept = old ++ fresh kept start) (hold : ∀ x ∈ old, x < start) :
    (List.range r.count).filter (fun i => r.at i ≥ start) =
      (List.range (fresh kept start).length).map (old.length + ·) := by
  have hlen : kept.length = old.length + (fresh kept start).length := by
    rw [← length_append, ← hsplit]
  have hexpired : ∀ i ∈ List.range old.length, ¬ decide (r.at i ≥ start) = true := by
    intro i hi
    have hlt := mem_range.mp hi
    have hin : i < kept.length := by omega
    have hget : kept[i] = old[i] := by
      rw [getElem_of_eq hsplit, getElem_append_left hlt]
    rw [h.at hin, hget]
    simpa using hold _ (getElem_mem hlt)
  have hfresh : ∀ i ∈ (List.range (fresh kept start).length).map (old.length + ·),
      decide (r.at i ≥ start) = true := by
    intro i hi
    obtain ⟨j, hj, rfl⟩ := mem_map.mp hi
    have hlt := mem_range.mp hj
    have hin : old.length + j < kept.length := by omega
    have hget : kept[old.length + j] = (fresh kept start)[j] := by
      rw [getElem_of_eq hsplit, getElem_append_right (Nat.le_add_right _ _)]
      simp only [Nat.add_sub_cancel_left]
    rw [h.at hin, hget]
    simpa using fresh_in hsorted _ (getElem_mem hlt)
  rw [← h.size, hlen, range_add, filter_append, filter_eq_nil_iff.mpr hexpired,
    filter_eq_self.mpr hfresh, nil_append]

theorem holds_drop {get : ℕ → Option ℤ} {c p : ℕ} {old new : List ℤ}
    (h : Ring.Holds get c p (old ++ new)) : Ring.Holds get c (p + old.length) new := by
  induction old generalizing p with
  | nil => exact h
  | cons a old ih =>
    have := ih h.tail
    rwa [length_cons, show p + (old.length + 1) = p + 1 + old.length by omega]

theorem update_some (f : ℕ → ℤ) (i : ℕ) (x : ℤ) : (fun j => some (Function.update f i x j)) =
      Function.update (fun j => some (f j)) i (some x) :=
  Function.comp_update some f i x

def keptAfter (kept : List ℤ) (now windowMs : ℤ) : List ℤ :=
  let valid := fresh kept (now - windowMs)
  (if valid.length < maxTimestamps then valid else valid.tail) ++ [now]

theorem keptAfter_length (hfull : kept.length ≤ maxTimestamps) :
    (keptAfter kept now windowMs).length =
      min ((fresh kept (now - windowMs)).length + 1) maxTimestamps := by
  have hle : (fresh kept (now - windowMs)).length ≤ kept.length := length_dropWhile_le _ _
  have hmax : maxTimestamps = 100 := rfl
  rw [keptAfter, length_append, length_singleton]
  split
  · omega
  · rw [length_tail]
    omega

theorem slidingWindowUpdate_keeps (now windowMs : ℤ) (h : r.Keeps kept)
    (hsorted : kept.Pairwise (· ≤ ·)) (hfull : kept.length ≤ maxTimestamps) :
    (slidingWindowUpdate r now windowMs).1.Keeps (keptAfter kept now windowMs) ∧
      (slidingWindowUpdate r now windowMs).2 = (keptAfter kept now windowMs).length := by
  obtain ⟨old, hsplit, hold⟩ := fresh_split kept (now - windowMs)
  have hmax : maxTimestamps = 100 := rfl
  have hlen : kept.length = old.length + (fresh kept (now - windowMs)).length := by
    rw [← length_append, ← hsplit]
  have hholds : Ring.Holds (fun i => some (r.timestamps i)) maxTimestamps
      ((r.head + old.length) % maxTimestamps) (fresh kept (now - windowMs)) := by
    refine Ring.holds_mod.mpr (holds_drop ?_)
    rw [← hsplit]
    exact h.holds
  unfold slidingWindowUpdate keptAfter
  rw [valid_eq h hsorted hsplit hold]
  cases hvalid : fresh kept (now - windowMs) with
  | nil =>
    refine ⟨⟨rfl, ?_⟩, rfl⟩
    show Ring.Holds (fun j => some (Function.update r.timestamps 0 now j)) maxTimestamps 0 [now]
    rw [update_some]
    have hnone : Ring.Holds (fun j => some (r.timestamps j)) maxTimestamps 0 [] := Ring.holds_nil
    exact hnone.push (by decide) now
  | cons first rest =>
    rw [hvalid] at hholds hlen
    have hhead : ∃ more, (List.range (first :: rest).length).map (old.length + ·) =
        old.length :: more := ⟨_, by rw [length_cons, range_succ_eq_map]; rfl⟩
    obtain ⟨more, hmore⟩ := hhead
    have hcount : (old.length :: more).length = (first :: rest).length := by
      rw [← hmore, length_map, length_range]
    rw [hmore]
    dsimp only
    rw [hcount]
    by_cases hroom : (first :: rest).length < maxTimestamps
    · rw [if_pos hroom, if_pos hroom]
      refine ⟨⟨length_append, ?_⟩, by rw [length_append]; rfl⟩
      dsimp only
      rw [update_some]
      exact hholds.push hroom now
    · -- the slot of the oldest time is the one behind the newest
      have hslot : (r.head + old.length) % maxTimestamps =
          ((r.head + old.length) % maxTimestamps + 1 + rest.length) % maxTimestamps := by
        rw [length_cons] at hlen hroom
        rw [hmax] at hroom hfull ⊢
        omega
      have hrest : rest.length < maxTimestamps := by
        rw [length_cons] at hlen
        omega
      rw [if_neg hroom, if_neg hroom]
      refine ⟨⟨length_append, ?_⟩, by rw [length_append]; rfl⟩
      dsimp only
      rw [update_some, tail_cons, Ring.holds_mod]
      have hpush := hholds.tail.push hrest now
      rwa [← hslot] at hpush

/-- The record has the newest of the past times; it has dropped only times that are out of the
window, or it is full. -/
def RateRecord.Follows (r : RateRecord) (past : List ℤ) (windowMs : ℤ) : Prop :=
  ∃ dropped kept, past = dropped ++ kept ∧ r.Keeps kept ∧ kept.length ≤ maxTimestamps ∧
    (kept.length = maxTimestamps ∨ ∀ now, (∀ x ∈ past, x ≤ now) → ∀ x ∈ dropped, x < now - windowMs)

theorem follows_nil (windowMs : ℤ) : RateRecord.Follows {} [] windowMs :=
  ⟨[], [], rfl, ⟨rfl, Ring.holds_nil⟩, Nat.zero_le _, .inr fun _ _ => nofun⟩

theorem windowCount_append (a b : List ℤ) (start : ℤ) :
    windowCount (a ++ b) start = windowCount a start + windowCount b start :=
  countP_append

theorem windowCount_expired {times : List ℤ} (h : ∀ x ∈ times, x < start) :
    windowCount times start = 0 :=
  countP_eq_zero.mpr fun x hx => by simpa using h x hx

theorem windowCount_now (hw : 0 < windowMs) : windowCount [now] (now - windowMs) = 1 := by
  rw [windowCount, countP_singleton, if_pos (by simpa using hw.le)]

/-- One request: the record goes on to follow, and counts what is in the window, up to its size. -/
theorem RateRecord.Follows.step (h : r.Follows past windowMs) (now : ℤ) (hw : 0 < windowMs)
    (hsorted : past.Pairwise (· ≤ ·)) (hnow : ∀ x ∈ past, x ≤ now) :
    (slidingWindowUpdate r now windowMs).1.Follows (past ++ [now]) windowMs ∧
      (slidingWindowUpdate r now windowMs).2 =
        min (windowCount (past ++ [now]) (now - windowMs)) maxTimestamps := by
  obtain ⟨dropped, kept, rfl, hkeeps, hfull, hdropped⟩ := h
  obtain ⟨-, hkept, hbefore⟩ := pairwise_append.mp hsorted
  obtain ⟨old, hsplit, hold⟩ := fresh_split kept (now - windowMs)
  obtain ⟨hnext, hcount⟩ := slidingWindowUpdate_keeps now windowMs hkeeps hkept hfull
  have hlen : kept.length = old.length + (fresh kept (now - windowMs)).length := by
    rw [← length_append, ← hsplit]
  rw [hcount, keptAfter_length hfull, ← windowCount_fresh hkept]
  rw [windowCount_append, windowCount_append, windowCount_now hw]
  by_cases hroom : (fresh kept (now - windowMs)).length < maxTimestamps
  · -- there was room, so all that is dropped is out of the window
    have hexpired : ∀ x ∈ dropped, x < now - windowMs := by
      rcases hdropped with hmax | hdropped
      · have hpos : 0 < old.length := by omega
        intro x hx
        have hmem : old[0] ∈ old := getElem_mem hpos
        have hin : old[0] ∈ kept := hsplit ▸ mem_append_left _ hmem
        exact (hbefore x hx _ hin).trans_lt (hold _ hmem)
      · exact hdropped now hnow
    refine ⟨⟨dropped ++ old, keptAfter kept now windowMs, ?_, hnext, ?_, .inr ?_⟩, ?_⟩
    · rw [keptAfter, if_pos hroom, ← append_assoc, append_assoc dropped old, ← hsplit]
    · rw [keptAfter_length hfull]
      exact Nat.min_le_right _ _
    · intro later hlater x hx
      have hle : now ≤ later := hlater now (mem_append_right _ (mem_singleton_self now))
      have hlt : x < now - windowMs := (mem_append.mp hx).elim (hexpired x) (hold x)
      omega
    · rw [windowCount_expired hexpired, Nat.zero_add]
  · -- the ring is full of times in the window
    have hmax : maxTimestamps = 100 := rfl
    have hold : old = [] := eq_nil_of_length_eq_zero (by omega)
    have hall : fresh kept (now - windowMs) = kept := by
      conv_rhs => rw [hsplit, hold, nil_append]
    rw [windowCount_fresh hkept, hall]
    rw [hall] at hroom
    obtain ⟨oldest, rest, rfl⟩ : ∃ oldest rest, kept = oldest :: rest :=
      exists_cons_of_length_pos (by omega)
    refine ⟨⟨dropped ++ [oldest], keptAfter (oldest :: rest) now windowMs, ?_, hnext, ?_, .inl ?_⟩,
      ?_⟩
    · rw [keptAfter, hall, if_neg hroom, tail_cons]
      simp
    · rw [keptAfter_length hfull]
      exact Nat.min_le_right _ _
    · rw [keptAfter_length hfull, hall]
      omega
    · omega

structure Visit where
  clientIp : Bytes
  nowMs : ℤ
  deriving DecidableEq

abbrev IpRecords := Bytes → Option RateRecord

def Visit.web (v : Visit) (records : IpRecords) : Web :=
  { clientIp := some v.clientIp, nowMs := v.nowMs, ipRecords := records }

def Body.world {ω : Type} : Body ω → ω
  | .ret w | .next w _ | .abort w _ | .defer w _ => w

def serve (cfg : RateLimitConfig) (records : IpRecords) (v : Visit) : IpRecords :=
  (rateLimitImpl cfg ⟨0, false, false, v.web records⟩).world.ipRecords

/- Whether the middleware answers the request itself, with "Too Many Requests". -/
def refuses (cfg : RateLimitConfig) (records : IpRecords) (v : Visit) : Bool :=
  match rateLimitImpl cfg ⟨0, false, false, v.web records⟩ with
  | .ret w => w.resStatus = 429
  | _ => false

def clientTimes (ip : Bytes) (visits : List Visit) : List ℤ :=
  (visits.filter (·.clientIp = ip)).map (·.nowMs)

/-- Every request of the client is refused exactly when too many of its requests, this one included,
lie in the window that ends with it. -/
def LimitRight (cfg : RateLimitConfig) (ip : Bytes) (visits : List Visit) : Prop :=
  ∀ before v after, visits = before ++ v :: after → v.clientIp = ip →
    (refuses cfg (before.foldl (serve cfg) fun _ => none) v = true ↔
      cfg.maxRequests < windowCount (clientTimes ip (before ++ [v])) (v.nowMs - cfg.windowMs))

/-- No window that ends with a request of the client has more requests than the limit. -/
def WithinLimit (cfg : RateLimitConfig) (ip : Bytes) (visits : List Visit) : Prop :=
  ∀ before v after, visits = before ++ v :: after → v.clientIp = ip →
    windowCount (clientTimes ip (before ++ [v])) (v.nowMs - cfg.windowMs) ≤ cfg.maxRequests

section Visits
variable {cfg : RateLimitConfig} {records : IpRecords} {v : Visit} {visits : List Visit}
  {ip : Bytes}

def IpRecords.record (records : IpRecords) (ip : Bytes) : RateRecord := (records ip).getD {}

theorem rateCount_visit (hmax : 1 ≤ cfg.maxRequests) (hw : 0 < cfg.windowMs) :
    rateCount cfg (v.web records) = some (v.clientIp,
      slidingWindowUpdate (records.record v.clientIp) v.nowMs cfg.windowMs) := by
  have hon : ¬ (cfg.maxRequests = 0 ∨ cfg.windowMs ≤ 0) := by omega
  have hrecord : getOrCreateRecord (v.web records) v.clientIp =
      some (records.record v.clientIp) := by
    have hweb : (v.web records).ipRecords = records := rfl
    rw [getOrCreateRecord, IpRecords.record, hweb]
    cases records v.clientIp <;> rfl
  rw [rateCount, if_neg hon]
  show (getOrCreateRecord (v.web records) v.clientIp).map _ = _
  rw [hrecord]
  rfl

theorem serve_eq (hmax : 1 ≤ cfg.maxRequests) (hw : 0 < cfg.windowMs) :
    serve cfg records v = Function.update records v.clientIp
      (some (slidingWindowUpdate (records.record v.clientIp) v.nowMs cfg.windowMs).1) := by
  rw [serve, rateLimitImpl, rateCount_visit hmax hw]
  dsimp only
  split <;> rfl

theorem refuses_iff (hmax : 1 ≤ cfg.maxRequests) (hw : 0 < cfg.windowMs) :
    refuses cfg records v = true ↔ cfg.maxRequests <
      (slidingWindowUpdate (records.record v.clientIp) v.nowMs cfg.windowMs).2 := by
  rw [refuses, rateLimitImpl, rateCount_visit hmax hw]
  by_cases hlt : cfg.maxRequests <
      (slidingWindowUpdate (records.record v.clientIp) v.nowMs cfg.windowMs).2
  · simp only [gt_iff_lt, if_pos hlt]
    exact iff_of_true (decide_eq_true rfl) hlt
  · simp only [gt_iff_lt, if_neg hlt]
    exact iff_of_false Bool.false_ne_true hlt

theorem clientTimes_append (a b : List Visit) :
    clientTimes ip (a ++ b) = clientTimes ip a ++ clientTimes ip b := by
  rw [clientTimes, filter_append, map_append]
  rfl

theorem clientTimes_self (v : Visit) : clientTimes v.clientIp [v] = [v.nowMs] := by
  simp [clientTimes]

theorem clientTimes_other (h : v.clientIp ≠ ip) : clientTimes ip [v] = [] := by
  simp [clientTimes, h]

theorem follows_serve (hmax : 1 ≤ cfg.maxRequests) (hw : 0 < cfg.windowMs)
    (h : (records.record ip).Follows past cfg.windowMs)
    (hsorted : (past ++ clientTimes ip [v]).Pairwise (· ≤ ·)) :
    ((serve cfg records v).record ip).Follows (past ++ clientTimes ip [v]) cfg.windowMs := by
  rw [serve_eq hmax hw]
  by_cases hip : v.clientIp = ip
  · subst hip
    rw [clientTimes_self] at hsorted ⊢
    obtain ⟨hpast, -, hnow⟩ := pairwise_append.mp hsorted
    have hstep := h.step v.nowMs hw hpast fun x hx =>
      hnow x hx _ (mem_singleton_self _)
    rw [IpRecords.record, Function.update_self]
    exact hstep.1
  · rw [clientTimes_other hip, append_nil, IpRecords.record,
      Function.update_of_ne (Ne.symm hip)]
    exact h

theorem follows_run (visits : List Visit) (hmax : 1 ≤ cfg.maxRequests) (hw : 0 < cfg.windowMs)
    (h : (records.record ip).Follows past cfg.windowMs)
    (hsorted : (past ++ clientTimes ip visits).Pairwise (· ≤ ·)) :
    ((visits.foldl (serve cfg) records).record ip).Follows (past ++ clientTimes ip visits)
      cfg.windowMs := by
  induction visits generalizing records past with
  | nil => simpa [clientTimes] using h
  | cons v visits ih =>
    have hsplit : clientTimes ip (v :: visits) = clientTimes ip [v] ++ clientTimes ip visits :=
      clientTimes_append [v] visits
    rw [hsplit, ← append_assoc] at hsorted ⊢
    exact ih (follows_serve hmax hw h (pairwise_append.mp hsorted).1) hsorted

theorem refuses_run (hmax : 1 ≤ cfg.maxRequests) (hw : 0 < cfg.windowMs)
    (hsorted : (clientTimes v.clientIp (visits ++ [v])).Pairwise (· ≤ ·)) :
    refuses cfg (visits.foldl (serve cfg) fun _ => none) v = true ↔ cfg.maxRequests <
      min (windowCount (clientTimes v.clientIp (visits ++ [v])) (v.nowMs - cfg.windowMs))
        maxTimestamps := by
  rw [clientTimes_append, clientTimes_self] at hsorted ⊢
  obtain ⟨hpast, -, hnow⟩ := pairwise_append.mp hsorted
  have hstart : (IpRecords.record (fun _ => none) v.clientIp).Follows [] cfg.windowMs :=
    follows_nil cfg.windowMs
  have hfollows := follows_run visits hmax hw hstart hpast
  have hstep := hfollows.step v.nowMs hw hpast fun x hx =>
    hnow x hx _ (mem_singleton_self _)
  rw [refuses_iff hmax hw, hstep.2]
  rfl

end Visits

end Voxlib.Http
