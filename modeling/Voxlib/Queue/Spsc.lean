import Voxlib.Lib.Ring
import Voxlib.Queue.Mpsc

/-!
# The SPSC queue (vox_queue.c, type VOX_QUEUE_TYPE_SPSC)

One producer and one consumer share an array and the two masked indices of its
ends. A step is one load or store of one of them (sequentially consistent). The
history records what the calls returned.
-/

namespace Voxlib.Queue.Spsc
open Run Pow2 Ring List Option

/-- The SPSC fields of `struct vox_queue` (vox_queue.c:26-44). -/
structure SpscQueue (E : Type) where
  elements : ℕ → Option E
  capacity : ℕ
  mask : ℕ
  atomicHead : ℕ
  atomicTail : ℕ

/-- `vox_queue_create_with_config` for the SPSC type. -/
def create (E : Type) (initial : ℕ) : SpscQueue E :=
  { elements := fun _ => none
    capacity := Mpsc.roundCapacity initial
    mask := Mpsc.roundCapacity initial - 1
    atomicHead := 0
    atomicTail := 0 }

/-- Where the producer is in `vox_queue_enqueue` (vox_queue.c:208-225). -/
inductive Producer (E : Type) where
  | idle
  | loadTail (elem : E)
  | loadHead (elem : E) (tail : ℕ)
  | writeElement (elem : E) (tail nextTail : ℕ)
  | storeTail (elem : E) (nextTail : ℕ)

inductive Look where
  | dequeue
  | peek
  deriving DecidableEq

/-- Where the consumer is in `vox_queue_dequeue` (vox_queue.c:290-307) or
`vox_queue_peek` (vox_queue.c:361-374). -/
inductive Consumer (E : Type) where
  | idle
  | loadHead (look : Look)
  | loadTail (look : Look) (head : ℕ)
  | readElement (look : Look) (head : ℕ)
  | storeHead (elem : Option E) (nextHead : ℕ)

/-- What the calls returned. `refused` and `missed` have an entry for each
enqueue that returned -1 and each dequeue or peek that returned NULL: whether
the queue was full, or empty, at some moment of that call. An entry of `peeked`
starts with the number of elements that had been taken. -/
structure History (E : Type) where
  enqueued : List E := []
  dequeued : List (Option E) := []
  peeked : List (ℕ × Option E) := []
  refused : List Bool := []
  missed : List Bool := []
  sawFull : Bool := false
  sawEmpty : Bool := false

def History.stored {E : Type} (h : History E) : ℕ := h.enqueued.length - h.dequeued.length

structure State (E : Type) where
  queue : SpscQueue E
  producer : Producer E
  consumer : Consumer E
  hist : History E

variable {E : Type}

def State.observe (s : State E) : State E :=
  { s with hist := { s.hist with
      sawFull := s.hist.sawFull || decide (s.hist.stored + 1 = s.queue.capacity)
      sawEmpty := s.hist.sawEmpty || decide (s.hist.stored = 0) } }

def State.init (E : Type) (initial : ℕ) : State E :=
  State.observe ⟨create E initial, .idle, .idle, {}⟩

def produce (s : State E) : Option (State E) :=
  match s.producer with
  | .idle => none
  | .loadTail elem => some { s with producer := .loadHead elem s.queue.atomicTail }
  | .loadHead elem tail =>
    let nextTail := (tail + 1) &&& s.queue.mask
    if nextTail = s.queue.atomicHead then
      some { s with
        producer := .idle
        hist := { s.hist with refused := s.hist.refused ++ [s.hist.sawFull] } }
    else some { s with producer := .writeElement elem tail nextTail }
  | .writeElement elem tail nextTail =>
    some { s with
      queue := { s.queue with elements := Function.update s.queue.elements tail (some elem) }
      producer := .storeTail elem nextTail }
  | .storeTail elem nextTail =>
    some { s with
      queue := { s.queue with atomicTail := nextTail }
      producer := .idle
      hist := { s.hist with enqueued := s.hist.enqueued ++ [elem] } }

def consume (s : State E) : Option (State E) :=
  match s.consumer with
  | .idle => none
  | .loadHead look => some { s with consumer := .loadTail look s.queue.atomicHead }
  | .loadTail look head =>
    if head = s.queue.atomicTail then
      some { s with
        consumer := .idle
        hist := { s.hist with missed := s.hist.missed ++ [s.hist.sawEmpty] } }
    else some { s with consumer := .readElement look head }
  | .readElement .dequeue head =>
    some { s with consumer := .storeHead (s.queue.elements head) ((head + 1) &&& s.queue.mask) }
  | .readElement .peek head =>
    some { s with
      consumer := .idle
      hist := { s.hist with
        peeked := s.hist.peeked ++ [(s.hist.dequeued.length, s.queue.elements head)] } }
  | .storeHead elem nextHead =>
    some { s with
      queue := { s.queue with atomicHead := nextHead }
      consumer := .idle
      hist := { s.hist with dequeued := s.hist.dequeued ++ [elem] } }

inductive Command (E : Type) where
  | callEnqueue (elem : E)
  | callLook (look : Look)
  | produce
  | consume

/-- One step: an idle thread calls, a busy one accesses. -/
def step (s : State E) (c : Command E) : Option (State E) :=
  (match c with
    | .callEnqueue elem =>
      match s.producer with
      | .idle => some { s with
          producer := .loadTail elem
          hist := { s.hist with sawFull := false } }
      | _ => none
    | .callLook look =>
      match s.consumer with
      | .idle => some { s with
          consumer := .loadHead look
          hist := { s.hist with sawEmpty := false } }
      | _ => none
    | .produce => produce s
    | .consume => consume s).map State.observe

/-- The queue holds `stored`, of which the first goes with the next dequeue;
`taken` are the elements before. -/
structure Ties (q : SpscQueue E) (h : History E) (taken stored : List E) : Prop where
  enqueued : h.enqueued = taken ++ stored
  dequeued : h.dequeued = taken.map some
  room : stored.length < q.capacity
  masked : ∀ p, p &&& q.mask = p % q.capacity
  head : q.atomicHead = taken.length % q.capacity
  tail : q.atomicTail = (taken.length + stored.length) % q.capacity
  holds : Holds q.elements q.capacity taken.length stored

/- The room that the producer has seen can only grow. -/
def ProducerOk (q : SpscQueue E) (taken stored : List E) : Producer E → Prop
  | .idle => True
  | .loadTail _ => True
  | .loadHead _ tail => tail = q.atomicTail
  | .writeElement _ tail nextTail =>
    tail = q.atomicTail ∧ nextTail = (taken.length + stored.length + 1) % q.capacity ∧
      stored.length + 1 < q.capacity
  | .storeTail elem nextTail =>
    nextTail = (taken.length + stored.length + 1) % q.capacity ∧
      stored.length + 1 < q.capacity ∧ q.elements q.atomicTail = some elem

/- The element that the consumer has seen can only leave by its own store. -/
def ConsumerOk (q : SpscQueue E) (taken stored : List E) : Consumer E → Prop
  | .idle => True
  | .loadHead _ => True
  | .loadTail _ head => head = q.atomicHead
  | .readElement _ head => head = q.atomicHead ∧ stored ≠ []
  | .storeHead elem nextHead =>
    nextHead = (taken.length + 1) % q.capacity ∧ ∃ x rest, stored = x :: rest ∧ elem = some x

structure Recorded (h : History E) : Prop where
  refused : ∀ b ∈ h.refused, b = true
  missed : ∀ b ∈ h.missed, b = true
  peeked : ∀ m e, (m, e) ∈ h.peeked → ∃ x, h.enqueued[m]? = some x ∧ e = some x

structure Inv (s : State E) (taken stored : List E) : Prop where
  ties : Ties s.queue s.hist taken stored
  producer : ProducerOk s.queue taken stored s.producer
  consumer : ConsumerOk s.queue taken stored s.consumer
  recorded : Recorded s.hist

structure Seen (s : State E) : Prop where
  full : s.hist.stored + 1 = s.queue.capacity → s.hist.sawFull = true
  empty : s.hist.stored = 0 → s.hist.sawEmpty = true

theorem seen_observe (s : State E) : Seen s.observe := by
  constructor
  · intro h
    have hnow : s.hist.stored + 1 = s.queue.capacity := h
    show (s.hist.sawFull || decide (s.hist.stored + 1 = s.queue.capacity)) = true
    rw [decide_eq_true hnow, Bool.or_true]
  · intro h
    have hnow : s.hist.stored = 0 := h
    show (s.hist.sawEmpty || decide (s.hist.stored = 0)) = true
    rw [decide_eq_true hnow, Bool.or_true]

variable {q : SpscQueue E} {h : History E} {taken stored : List E}

theorem Ties.record {h' : History E} (ht : Ties q h taken stored) (he : h'.enqueued = h.enqueued)
    (hd : h'.dequeued = h.dequeued) : Ties q h' taken stored :=
  ⟨he.trans ht.enqueued, hd.trans ht.dequeued, ht.room, ht.masked, ht.head, ht.tail, ht.holds⟩

theorem Inv.observe {s : State E} (h : Inv s taken stored) : Inv s.observe taken stored := by
  obtain ⟨ht, hp, hc, ⟨hr, hm, hk⟩⟩ := h
  exact ⟨ht.record rfl rfl, hp, hc, ⟨hr, hm, hk⟩⟩

theorem Ties.stored_eq (ht : Ties q h taken stored) : h.stored = stored.length := by
  unfold History.stored
  rw [ht.enqueued, ht.dequeued, length_append, length_map]
  omega

theorem Ties.tail_eq_head (ht : Ties q h taken stored) :
    q.atomicHead = q.atomicTail ↔ stored = [] := by
  rw [ht.head, ht.tail]
  have hpos : 0 < q.capacity := lt_of_le_of_lt (Nat.zero_le _) ht.room
  constructor
  · intro heq
    have hzero := slot_inj (p := taken.length) hpos ht.room heq
    exact length_eq_zero_iff.mp hzero.symm
  · intro hnil
    rw [hnil]
    rfl

theorem Ties.next_eq_head (ht : Ties q h taken stored) : (q.atomicTail + 1) &&& q.mask =
      (taken.length + stored.length + 1) % q.capacity ∧
    ((q.atomicTail + 1) &&& q.mask = q.atomicHead ↔ stored.length + 1 = q.capacity) := by
  have hroom := ht.room
  have hnext : (q.atomicTail + 1) &&& q.mask = (taken.length + stored.length + 1) % q.capacity := by
    rw [ht.masked, ht.tail, Nat.mod_add_mod]
  refine ⟨hnext, ?_⟩
  rw [hnext, ht.head]
  constructor
  · intro heq
    by_contra hne
    have hlt : stored.length + 1 < q.capacity := by omega
    have hinj := slot_inj (p := taken.length) (j := 0) hlt (by omega) heq
    omega
  · intro heq
    rw [Nat.add_assoc, heq, Nat.add_mod_right]

theorem recorded_enqueue (hrec : Recorded h) (elem : E) :
    Recorded { h with enqueued := h.enqueued ++ [elem] } := by
  refine ⟨hrec.refused, hrec.missed, ?_⟩
  intro m e he
  obtain ⟨x, hx, hxe⟩ := hrec.peeked m e he
  have hlt : m < h.enqueued.length := (List.getElem?_eq_some_iff.mp hx).1
  exact ⟨x, (List.getElem?_append_left hlt).trans hx, hxe⟩

theorem mem_snoc {bs : List Bool} {b : Bool} (hbs : ∀ x ∈ bs, x = true) (hb : b = true) :
    ∀ x ∈ bs ++ [b], x = true := by
  intro x hx
  rcases mem_append.mp hx with hx | hx
  · exact hbs x hx
  · rw [mem_singleton.mp hx, hb]

theorem produce_inv {s t : State E} (h : Inv s taken stored) (hseen : Seen s)
    (hstep : produce s = some t) : ∃ stored', Inv t taken stored' := by
  obtain ⟨ht, hp, hc, hr⟩ := h
  unfold produce at hstep
  cases hpc : s.producer with
  | idle =>
    rw [hpc] at hstep
    cases hstep
  | loadTail elem =>
    rw [hpc] at hstep
    obtain rfl := some.inj hstep
    exact ⟨stored, ht, rfl, hc, hr⟩
  | loadHead elem tail =>
    rw [hpc] at hstep hp
    obtain rfl : tail = s.queue.atomicTail := hp
    obtain ⟨hnext, hfull⟩ := ht.next_eq_head
    dsimp only at hstep
    split at hstep
    · rename_i heq
      -- the queue is full now
      obtain rfl := some.inj hstep
      refine ⟨stored, ht.record rfl rfl, trivial, hc, mem_snoc hr.refused ?_, hr.missed, hr.peeked⟩
      apply hseen.full
      rw [ht.stored_eq]
      exact hfull.mp heq
    · rename_i hne
      obtain rfl := some.inj hstep
      have hroom := ht.room
      have hnot := mt hfull.mpr hne
      have hmore : stored.length + 1 < s.queue.capacity := by omega
      exact ⟨stored, ht, ⟨rfl, hnext, hmore⟩, hc, hr⟩
  | writeElement elem tail nextTail =>
    rw [hpc] at hstep hp
    obtain ⟨htail, hnext, hroom⟩ := hp
    obtain rfl := some.inj hstep
    rw [htail, ht.tail]
    refine ⟨stored, ?_, ⟨hnext, hroom, ?_⟩, ?_, hr⟩
    · exact ⟨ht.enqueued, ht.dequeued, ht.room, ht.masked, ht.head, ht.tail,
        ht.holds.write ht.room (some elem)⟩
    · dsimp only
      rw [ht.tail]
      exact Function.update_self _ _ _
    · -- the consumer is not at the slot that is written
      cases hcc : s.consumer with
      | idle => trivial
      | loadHead look => trivial
      | loadTail look head =>
        rw [hcc] at hc
        exact hc
      | readElement look head =>
        rw [hcc] at hc
        exact hc
      | storeHead e nextHead =>
        rw [hcc] at hc
        exact hc
  | storeTail elem nextTail =>
    rw [hpc] at hstep hp
    obtain ⟨hnext, hroom, helem⟩ := hp
    obtain rfl := some.inj hstep
    rw [ht.tail] at helem
    refine ⟨stored ++ [elem], ?_, trivial, ?_, recorded_enqueue hr elem⟩
    · refine ⟨?_, ht.dequeued, ?_, ht.masked, ht.head, ?_, ht.holds.snoc helem⟩
      · dsimp only
        rw [ht.enqueued, append_assoc]
      · rw [length_append]
        exact hroom
      · dsimp only
        rw [hnext, length_append, ← Nat.add_assoc]
        rfl
    · cases hcc : s.consumer with
      | idle => trivial
      | loadHead look => trivial
      | loadTail look head =>
        rw [hcc] at hc
        exact hc
      | readElement look head =>
        rw [hcc] at hc
        exact ⟨hc.1, by simp⟩
      | storeHead e nextHead =>
        rw [hcc] at hc
        obtain ⟨hhead, x, rest, hstored, hx⟩ := hc
        refine ⟨hhead, x, rest ++ [elem], ?_, hx⟩
        rw [hstored]
        rfl

theorem consume_inv {s t : State E} (h : Inv s taken stored) (hseen : Seen s)
    (hstep : consume s = some t) : ∃ taken' stored', Inv t taken' stored' := by
  obtain ⟨ht, hp, hc, hr⟩ := h
  unfold consume at hstep
  cases hcc : s.consumer with
  | idle =>
    rw [hcc] at hstep
    cases hstep
  | loadHead look =>
    rw [hcc] at hstep
    obtain rfl := some.inj hstep
    exact ⟨taken, stored, ht, hp, rfl, hr⟩
  | loadTail look head =>
    rw [hcc] at hstep hc
    obtain rfl : head = s.queue.atomicHead := hc
    dsimp only at hstep
    split at hstep
    · rename_i heq
      -- the queue is empty now
      obtain rfl := some.inj hstep
      refine ⟨taken, stored, ht.record rfl rfl, hp, trivial, hr.refused, mem_snoc hr.missed ?_,
        hr.peeked⟩
      apply hseen.empty
      rw [ht.stored_eq, ht.tail_eq_head.mp heq]
      rfl
    · rename_i hne
      obtain rfl := some.inj hstep
      exact ⟨taken, stored, ht, hp, ⟨rfl, mt ht.tail_eq_head.mpr hne⟩, hr⟩
  | readElement look head =>
    rw [hcc] at hstep hc
    obtain ⟨hhead, hne⟩ := hc
    obtain ⟨x, rest, rfl⟩ := exists_cons_of_ne_nil hne
    have hread : s.queue.elements head = some x := by
      rw [hhead, ht.head]
      exact ht.holds.head
    cases look with
    | dequeue =>
      obtain rfl := some.inj hstep
      refine ⟨taken, x :: rest, ht, hp, ⟨?_, x, rest, rfl, hread⟩, hr⟩
      rw [ht.masked, hhead, ht.head, Nat.mod_add_mod]
    | peek =>
      obtain rfl := some.inj hstep
      refine ⟨taken, x :: rest, ht.record rfl rfl, hp, trivial, hr.refused, hr.missed, ?_⟩
      intro m e he
      rcases mem_append.mp he with he | he
      · exact hr.peeked m e he
      · obtain ⟨hm, hev⟩ := Prod.mk.inj (mem_singleton.mp he)
        refine ⟨x, ?_, hev.trans hread⟩
        dsimp only
        rw [hm, ht.enqueued, ht.dequeued, length_map]
        simp
  | storeHead elem nextHead =>
    rw [hcc] at hstep hc
    obtain ⟨hnext, x, rest, rfl, rfl⟩ := hc
    obtain rfl := some.inj hstep
    have hlen : (taken ++ [x]).length + rest.length = taken.length + (x :: rest).length := by
      simp only [length_append, length_cons, length_nil]
      omega
    have hroom := ht.room
    rw [length_cons] at hroom
    have hroom' : rest.length < s.queue.capacity := by omega
    refine ⟨taken ++ [x], rest, ?_, ?_, trivial, hr.refused, hr.missed, hr.peeked⟩
    · refine ⟨?_, ?_, hroom', ht.masked, ?_, ?_, ?_⟩
      · dsimp only
        rw [ht.enqueued, append_assoc]
        rfl
      · dsimp only
        rw [ht.dequeued, map_append]
        rfl
      · rw [length_append]
        exact hnext
      · rw [hlen]
        exact ht.tail
      · rw [length_append]
        exact ht.holds.tail
    · -- the producer has more room than it saw
      cases hpc : s.producer with
      | idle => trivial
      | loadTail e => trivial
      | loadHead e tail =>
        rw [hpc] at hp
        exact hp
      | writeElement e tail nextTail =>
        rw [hpc] at hp
        obtain ⟨htail, hnextTail, hmore⟩ := hp
        rw [length_cons] at hmore
        have hmore' : rest.length + 1 < s.queue.capacity := by omega
        refine ⟨htail, ?_, hmore'⟩
        rw [hlen]
        exact hnextTail
      | storeTail e nextTail =>
        rw [hpc] at hp
        obtain ⟨hnextTail, hmore, helem⟩ := hp
        rw [length_cons] at hmore
        have hmore' : rest.length + 1 < s.queue.capacity := by omega
        refine ⟨?_, hmore', helem⟩
        rw [hlen]
        exact hnextTail

theorem step_inv {s t : State E} {c : Command E} (h : (∃ taken stored, Inv s taken stored) ∧ Seen s)
    (hstep : step s c = some t) : (∃ taken stored, Inv t taken stored) ∧ Seen t := by
  obtain ⟨⟨taken, stored, hinv⟩, hseen⟩ := h
  obtain ⟨u, hu, rfl⟩ := map_eq_some_iff.mp hstep
  refine ⟨?_, seen_observe u⟩
  suffices hkeep : ∃ taken stored, Inv u taken stored by
    obtain ⟨taken', stored', h'⟩ := hkeep
    exact ⟨taken', stored', h'.observe⟩
  cases c with
  | callEnqueue elem =>
    cases hp : s.producer with
    | idle =>
      simp only [hp] at hu
      obtain rfl := some.inj hu
      obtain ⟨ht, _, hc, ⟨hr, hm, hk⟩⟩ := hinv
      exact ⟨taken, stored, ht.record rfl rfl, trivial, hc, hr, hm, hk⟩
    | _ =>
      simp only [hp] at hu
      cases hu
  | callLook look =>
    cases hc : s.consumer with
    | idle =>
      simp only [hc] at hu
      obtain rfl := some.inj hu
      obtain ⟨ht, hp, _, ⟨hr, hm, hk⟩⟩ := hinv
      exact ⟨taken, stored, ht.record rfl rfl, hp, trivial, hr, hm, hk⟩
    | _ =>
      simp only [hc] at hu
      cases hu
  | produce =>
    obtain ⟨stored', h'⟩ := produce_inv hinv hseen hu
    exact ⟨taken, stored', h'⟩
  | consume => exact consume_inv hinv hseen hu

theorem roundCapacity_two_pow (k : ℕ) : Mpsc.roundCapacity (2 ^ k) = 2 ^ k := by
  unfold Mpsc.roundCapacity
  rw [if_neg]
  rw [not_not, Nat.and_two_pow_sub_one_eq_mod, Nat.mod_self]

theorem init_inv (k : ℕ) : (∃ taken stored, Inv (State.init E (2 ^ k)) taken stored) ∧
    Seen (State.init E (2 ^ k)) := by
  refine ⟨⟨[], [], Inv.observe ⟨⟨rfl, rfl, ?_, ?_, ?_, ?_, holds_nil⟩, trivial, trivial,
    ?_, ?_, ?_⟩⟩, seen_observe _⟩
  · dsimp only [create]
    rw [roundCapacity_two_pow]
    exact Nat.two_pow_pos k
  · intro p
    dsimp only [create]
    rw [roundCapacity_two_pow]
    exact and_mask_eq_mod rfl
  · exact (Nat.zero_mod _).symm
  · exact (Nat.zero_mod _).symm
  · intro b hb
    cases hb
  · intro b hb
    cases hb
  · intro m e he
    cases he

theorem step_capacity {s t : State E} {c : Command E} (hstep : step s c = some t) :
    t.queue.capacity = s.queue.capacity := by
  obtain ⟨u, hu, rfl⟩ := map_eq_some_iff.mp hstep
  show u.queue.capacity = s.queue.capacity
  cases c with
  | callEnqueue elem =>
    cases hp : s.producer with
    | idle =>
      simp only [hp] at hu
      obtain rfl := some.inj hu
      rfl
    | _ =>
      simp only [hp] at hu
      cases hu
  | callLook look =>
    cases hc : s.consumer with
    | idle =>
      simp only [hc] at hu
      obtain rfl := some.inj hu
      rfl
    | _ =>
      simp only [hc] at hu
      cases hu
  | produce =>
    unfold produce at hu
    grind
  | consume =>
    unfold consume at hu
    grind

/-- In every interleaving of a producer and a consumer the elements come out in
the order in which they went in, each once, and a call is refused only by a full
queue or an empty one. -/
theorem spsc_runs (k : ℕ) (cs : List (Command E)) {t : State E}
    (h : exec step (State.init E (2 ^ k)) cs = some t) :
    t.hist.dequeued <+: t.hist.enqueued.map some ∧
    (∀ m e, (m, e) ∈ t.hist.peeked → ∃ x, t.hist.enqueued[m]? = some x ∧ e = some x) ∧
    (∀ b ∈ t.hist.missed, b = true) ∧ (∀ b ∈ t.hist.refused, b = true) ∧
    t.queue.capacity = 2 ^ k ∧ t.queue.atomicHead < 2 ^ k ∧ t.queue.atomicTail < 2 ^ k := by
  have hcap : t.queue.capacity = 2 ^ k := by
    refine exec_invariant (I := fun s : State E => s.queue.capacity = 2 ^ k) ?_
      (roundCapacity_two_pow k) h
    intro s c u hs hstep
    rw [step_capacity hstep, hs]
  obtain ⟨⟨taken, stored, ht, _, _, hr⟩, _⟩ :=
    exec_invariant (fun _ _ _ hs hstep => step_inv hs hstep) (init_inv (E := E) k) h
  have hpos : 0 < t.queue.capacity := lt_of_le_of_lt (Nat.zero_le _) ht.room
  refine ⟨?_, hr.peeked, hr.missed, hr.refused, hcap, ?_, ?_⟩
  · rw [ht.dequeued, ht.enqueued, map_append]
    exact prefix_append _ _
  · rw [← hcap, ht.head]
    exact Nat.mod_lt _ hpos
  · rw [← hcap, ht.tail]
    exact Nat.mod_lt _ hpos

def exampleRun : List (Command ℕ) :=
  [.callEnqueue 7, .produce, .produce, .produce, .produce, .callLook .dequeue, .consume,
    .callEnqueue 8, .consume, .produce, .produce, .consume, .consume]

theorem spsc_example : ∃ t, exec step (State.init ℕ (2 ^ 1)) exampleRun = some t ∧
    t.hist.dequeued <+: t.hist.enqueued.map some ∧ t.hist.dequeued = [some 7] ∧
    t.hist.refused = [true] :=
  ⟨_, rfl, (spsc_runs 1 exampleRun rfl).1, rfl, rfl⟩

end Voxlib.Queue.Spsc
