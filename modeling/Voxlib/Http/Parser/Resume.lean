import Voxlib.Http.Parser.Passes

/-!
# Parsing a view in two parts
-/

namespace Voxlib.HttpParser
open CStr List

def Event.isBody : Event → Bool
  | .body _ => true
  | _ => false

def Event.bodyBytes : Event → Bytes
  | .body data => data
  | _ => []

def bodyOf (es : List Event) : Bytes := es.flatMap Event.bodyBytes

def withoutBody (es : List Event) : List Event := es.filter fun e => !e.isBody

def Alike (es es' : List Event) : Prop :=
  withoutBody es = withoutBody es' ∧ bodyOf es = bodyOf es'

theorem Alike.refl (es : List Event) : Alike es es := ⟨rfl, rfl⟩

variable {es : List Event}

theorem Alike.symm {es' : List Event} (h : Alike es es') : Alike es' es := ⟨h.1.symm, h.2.symm⟩

theorem Alike.trans {es' es'' : List Event} (h : Alike es es') (h' : Alike es' es'') :
    Alike es es'' :=
  ⟨h.1.trans h'.1, h.2.trans h'.2⟩

theorem Alike.append {es' fs fs' : List Event} (h : Alike es es') (h' : Alike fs fs') :
    Alike (es ++ fs) (es' ++ fs') := by
  unfold Alike withoutBody bodyOf at *
  rw [filter_append, filter_append, flatMap_append, flatMap_append, h.1, h.2,
    h'.1, h'.2]
  exact ⟨rfl, rfl⟩

theorem alike_body (d d' : Bytes) (es : List Event) :
    Alike (.body (d ++ d') :: es) (.body d :: .body d' :: es) := by
  refine ⟨rfl, ?_⟩
  simp [bodyOf, Event.bodyBytes]

inductive Continued (cfg : Config) (x : Bytes) (r r' : Result) : Prop
  | failed (hr : r.code = -1) (hr' : r'.code = -1)
  | completed (hr : r.code = 0) (hr' : r'.code = 0) (hcore : r'.core = r.core)
    (hev : Alike r'.events r.events)
  | resumed {r₂ : Result} (hr : r.code = -2) (hp : Parses cfg r.core (r.rest ++ x) r₂)
    (hcode : r'.code = r₂.code) (hcore : r'.core = r₂.core)
    (hev : Alike r'.events (r.events ++ r₂.events))

theorem Continued.prepend {cfg : Config} {x : Bytes} {r r' : Result} (h : Continued cfg x r r')
    (es : List Event) : Continued cfg x (r.prepend es) (r'.prepend es) := by
  cases h with
  | failed hr hr' => exact .failed hr hr'
  | completed hr hr' hcore hev => exact .completed hr hr' hcore ((Alike.refl es).append hev)
  | resumed hr hp hcode hcore hev =>
    refine .resumed hr hp hcode hcore ?_
    have happ := (Alike.refl es).append hev
    rw [← append_assoc] at happ
    exact happ

theorem headers_done_append {cfg : Config} {c c₁ : Core} {v rest : Bytes}
    (h : headers cfg c none v = .done c₁ es rest) (x : Bytes) :
    headers cfg c none (v ++ x) = .done c₁ es (rest ++ x) := by
  rw [headers_append cfg x v.length c none v (le_refl _), h]
  rfl

theorem headers_fail_append {cfg : Config} {c c₁ : Core} {v : Bytes}
    (h : headers cfg c none v = .fail c₁ es) (x : Bytes) :
    headers cfg c none (v ++ x) = .fail c₁ es := by
  rw [headers_append cfg x v.length c none v (le_refl _), h]
  rfl

theorem fails_append {cfg : Config} {c c' : Core} {v : Bytes} (h : Fails cfg c v c' es)
    (x : Bytes) : Fails cfg c (v ++ x) c' es := by
  cases h with
  | start hp hline hok => exact .start hp (splitLine_append hline x) hok
  | headers hp hh => exact .headers hp (headers_fail_append hh x)
  | chunkSize hp hline hn => exact .chunkSize hp (splitLine_append hline x) hn

theorem completes_append {cfg : Config} {c c' : Core} {v rest : Bytes}
    (h : Completes cfg c v c' es rest) (x : Bytes) :
    ∃ rest', Completes cfg c (v ++ x) c' es rest' := by
  cases h with
  | headers hp hh hc hlen => exact ⟨_, .headers hp (headers_done_append hh x) hc hlen⟩
  | bodyNone hp hneed => exact ⟨_, .bodyNone hp hneed⟩
  | body hp hneed hpos hlen =>
    rename_i n
    have hlen' : n ≤ (v ++ x).length := by
      rw [length_append]
      omega
    rw [← show (v ++ x).take n = v.take n from take_append_of_le_length hlen]
    exact ⟨_, .body hp hneed hpos hlen'⟩
  | lastChunk hp hline hn => exact ⟨_, .lastChunk hp (splitLine_append hline x) hn⟩

/- The passes that hand over all of the view take the first bytes of `x` along. -/
inductive Swallows : Core → Bytes → Core → Prop
  | body {c : Core} {v : Bytes} (hp : c.phase = .body) (hne : v ≠ [])
    (hlen : v.length < c.contentLength - c.bodyRead) :
    Swallows c v { c with bodyRead := c.bodyRead + v.length }
  | chunk {c : Core} {v : Bytes} (hp : c.phase = .chunkData) (hne : v ≠ [])
    (hlen : v.length < c.chunkRemaining) :
    Swallows c v { c with chunkRemaining := c.chunkRemaining - v.length }

theorem goes_append {cfg : Config} {c c' : Core} {v rest : Bytes} (h : Goes cfg c v c' es rest)
    (x : Bytes) :
    Goes cfg c (v ++ x) c' es (rest ++ x) ∨ (Swallows c v c' ∧ es = [.body v] ∧ rest = []) := by
  cases h with
  | begin hp => exact .inl (.begin hp)
  | start hp hline hok => exact .inl (.start hp (splitLine_append hline x) hok)
  | headersChunked hp hh hc => exact .inl (.headersChunked hp (headers_done_append hh x) hc)
  | headersBody hp hh hc hlen => exact .inl (.headersBody hp (headers_done_append hh x) hc hlen)
  | bodyPart hp hne hlen => exact .inr ⟨.body hp hne hlen, rfl, rfl⟩
  | chunk hp hline hn hpos => exact .inl (.chunk hp (splitLine_append hline x) hn hpos)
  | chunkNone hp hrem => exact .inl (.chunkNone hp hrem)
  | chunkAll hp hrem hlen =>
    have hlen' : c.chunkRemaining ≤ (v ++ x).length := by
      rw [length_append]
      omega
    have htake : (v ++ x).take c.chunkRemaining = v.take c.chunkRemaining :=
      take_append_of_le_length hlen
    rw [← htake, ← drop_append_of_le_length hlen]
    exact .inl (.chunkAll hp hrem hlen')
  | chunkPart hp hne hlen => exact .inr ⟨.chunk hp hne hlen, rfl, rfl⟩
  | chunkNext hp hlen =>
    have hlen' : 2 ≤ (v ++ x).length := by
      rw [length_append]
      omega
    rw [← drop_append_of_le_length hlen]
    exact .inl (.chunkNext hp hlen')

theorem swallows_starved {c c' : Core} {v : Bytes} (h : Swallows c v c') : Starved c' [] := by
  cases h with
  | body hp hne hlen => exact .body hp (by dsimp only; omega)
  | chunk hp hne hlen => exact .chunkData hp (by dsimp only; omega)

def Merged (v : Bytes) (r₂ r' : Result) : Prop :=
  r'.code = r₂.code ∧ r'.core = r₂.core ∧ Alike r'.events (.body v :: r₂.events)

theorem merged_prepend (v d : Bytes) (r : Result) :
    Merged v (r.prepend [.body d]) (r.prepend [.body (v ++ d)]) :=
  ⟨rfl, rfl, alike_body v d r.events⟩

def Leaves (r₂ r' : Result) : Prop := r'.rest = r₂.rest ∧ r'.dropped = r₂.dropped

theorem swallows_body {cfg : Config} {c : Core} {v x : Bytes} (hp : c.phase = .body)
    (hv : v.length < c.contentLength - c.bodyRead) (hx : x ≠ []) :
    ∃ r₂ r', Parses cfg { c with bodyRead := c.bodyRead + v.length } x r₂ ∧
      Parses cfg c (v ++ x) r' ∧ Merged v r₂ r' ∧ Leaves r₂ r' := by
  have hne : v ++ x ≠ [] := fun h => hx (append_eq_nil_iff.mp h).2
  have hlen : (v ++ x).length = v.length + x.length := length_append
  by_cases hlt : x.length < c.contentLength - (c.bodyRead + v.length)
  · have hgo : Goes cfg c (v ++ x) _ [.body (v ++ x)] [] := .bodyPart hp hne (by omega)
    rw [hlen, ← Nat.add_assoc] at hgo
    have hgo₂ : Goes cfg { c with bodyRead := c.bodyRead + v.length } x _ [.body x] [] :=
      .bodyPart hp hx hlt
    have hend : Starved { c with bodyRead := c.bodyRead + v.length + x.length } [] :=
      .body hp (by dsimp only; omega)
    exact ⟨_, _, .goes hgo₂ (.ends (.starved hend)), .goes hgo (.ends (.starved hend)),
      merged_prepend v x _, rfl, rfl⟩
  · obtain ⟨n, hn⟩ : ∃ n, c.contentLength - (c.bodyRead + v.length) = n := ⟨_, rfl⟩
    have hdone₂ : Completes cfg { c with bodyRead := c.bodyRead + v.length } x _
        [.body (x.take n)] (x.drop n) := .body hp hn (by omega) (by omega)
    have hdone : Completes cfg c (v ++ x) _ [.body ((v ++ x).take (v.length + n))]
        ((v ++ x).drop (v.length + n)) := .body hp (by omega) (by omega) (by omega)
    rw [take_length_add_append, drop_length_add_append, ← Nat.add_assoc] at hdone
    exact ⟨_, _, .ends (.completed hdone₂), .ends (.completed hdone),
      ⟨rfl, rfl, alike_body v (x.take n) [.messageComplete]⟩, rfl, rfl⟩

theorem swallows_chunk {cfg : Config} {c : Core} {v x : Bytes} (hp : c.phase = .chunkData)
    (hv : v.length < c.chunkRemaining) (hx : x ≠ []) :
    ∃ r₂ r', Parses cfg { c with chunkRemaining := c.chunkRemaining - v.length } x r₂ ∧
      Parses cfg c (v ++ x) r' ∧ Merged v r₂ r' ∧ Leaves r₂ r' := by
  have hne : v ++ x ≠ [] := fun h => hx (append_eq_nil_iff.mp h).2
  have hlen : (v ++ x).length = v.length + x.length := length_append
  by_cases hlt : x.length < c.chunkRemaining - v.length
  · have hgo : Goes cfg c (v ++ x) _ [.body (v ++ x)] [] := .chunkPart hp hne (by omega)
    rw [hlen, ← Nat.sub_sub] at hgo
    have hgo₂ : Goes cfg { c with chunkRemaining := c.chunkRemaining - v.length } x _
        [.body x] [] := .chunkPart hp hx hlt
    have hend : Starved { c with chunkRemaining := c.chunkRemaining - v.length - x.length } [] :=
      .chunkData hp (by dsimp only; omega)
    exact ⟨_, _, .goes hgo₂ (.ends (.starved hend)), .goes hgo (.ends (.starved hend)),
      merged_prepend v x _, rfl, rfl⟩
  · obtain ⟨n, hn⟩ : ∃ n, c.chunkRemaining - v.length = n := ⟨_, rfl⟩
    rw [hn] at hlt ⊢
    have hrem : c.chunkRemaining = v.length + n := by omega
    have hgo₂ : Goes cfg { c with chunkRemaining := n } x _ [.body (x.take n)] (x.drop n) :=
      .chunkAll hp (by dsimp only; omega) (by dsimp only; omega)
    have hgo : Goes cfg c (v ++ x) _ [.body ((v ++ x).take c.chunkRemaining)]
        ((v ++ x).drop c.chunkRemaining) := .chunkAll hp (by omega) (by omega)
    rw [hrem, take_length_add_append, drop_length_add_append] at hgo
    obtain ⟨r, hr⟩ := parses_total cfg { c with chunkRemaining := 0, phase := .chunkEnd } (x.drop n)
    exact ⟨_, _, .goes hgo₂ hr, .goes hgo hr, merged_prepend v (x.take n) r,
      rfl, rfl⟩

theorem swallows_merged {cfg : Config} {c c' : Core} {v x : Bytes} (h : Swallows c v c')
    (hx : x ≠ []) : ∃ r₂ r', Parses cfg c' x r₂ ∧ Parses cfg c (v ++ x) r' ∧ Merged v r₂ r' ∧
      Leaves r₂ r' := by
  cases h with
  | body hp _ hlen => exact swallows_body hp hlen hx
  | chunk hp _ hlen => exact swallows_chunk hp hlen hx

theorem swallows_continued {cfg : Config} {c c' : Core} {v : Bytes} (h : Swallows c v c')
    (x : Bytes) : ∃ r', Parses cfg c (v ++ x) r' ∧
      Continued cfg x ((Result.more c' [] []).prepend [.body v]) r' := by
  have hstarved := swallows_starved h
  by_cases hx : x = []
  · subst hx
    have hgo : Goes cfg c v c' [.body v] [] := by
      cases h with
      | body hp hne hlen => exact .bodyPart hp hne hlen
      | chunk hp hne hlen => exact .chunkPart hp hne hlen
    rw [append_nil]
    exact ⟨_, .goes hgo (.ends (.starved hstarved)),
      .resumed rfl (.ends (.starved hstarved)) rfl rfl (Alike.refl _)⟩
  · obtain ⟨r₂, r', hr₂, hr', ⟨hcode, hcore, hev⟩, -⟩ := @swallows_merged cfg c c' v x h hx
    exact ⟨r', hr', .resumed rfl hr₂ hcode hcore hev⟩

theorem ends_continued {cfg : Config} {c : Core} {v : Bytes} {r : Result} (h : Ends cfg c v r)
    (hkept : r.dropped = none) (x : Bytes) :
    ∃ r', Parses cfg c (v ++ x) r' ∧ Continued cfg x r r' := by
  cases h with
  | starved h =>
    obtain ⟨r', hr'⟩ := parses_total cfg c (v ++ x)
    exact ⟨r', hr', .resumed rfl hr' rfl rfl (Alike.refl _)⟩
  | lost hp hh => cases hkept
  | failed h => exact ⟨_, .ends (.failed (fails_append h x)), .failed rfl rfl⟩
  | completed h =>
    obtain ⟨rest', h'⟩ := completes_append h x
    exact ⟨_, .ends (.completed h'), .completed rfl rfl rfl (Alike.refl _)⟩
  | halted hp => exact ⟨_, .ends (.halted hp), .completed rfl rfl rfl (Alike.refl _)⟩

theorem parses_append {cfg : Config} {c : Core} {v : Bytes} {r : Result} (h : Parses cfg c v r)
    (hkept : r.dropped = none) (x : Bytes) :
    ∃ r', Parses cfg c (v ++ x) r' ∧ Continued cfg x r r' := by
  induction h with
  | ends hr => exact ends_continued hr hkept x
  | goes hg hr ih =>
    cases goes_append hg x with
    | inl hgo =>
      obtain ⟨r', hr', hcont⟩ := ih hkept
      exact ⟨_, .goes hgo hr', hcont.prepend _⟩
    | inr hsw =>
      obtain ⟨hswallow, rfl, rfl⟩ := hsw
      have hmore := parses_unique hr (.ends (.starved (swallows_starved hswallow)))
      rw [hmore]
      exact swallows_continued hswallow x

end Voxlib.HttpParser
