import Voxlib.Mqtt.Server

/-!
# What a message does to a connection

Each call that sends a PUBLISH to a connection is a function of that connection.
-/

namespace Voxlib.Mqtt
open CStr Wire List Function

variable {env : Env} {s : Server} {c d : ConnId}

theorem mem_eraseP_key {α κ : Type*} [DecidableEq κ] {key : α → κ} {l : List α}
    (honce : (l.map key).Nodup) (k : κ) (x : α) :
    x ∈ l.eraseP (fun a => key a = k) ↔ x ∈ l ∧ key x ≠ k := by
  induction l with
  | nil => simp
  | cons a l ih =>
    rw [map_cons, nodup_cons] at honce
    by_cases ha : key a = k
    · rw [eraseP_cons_of_pos (by simpa using ha)]
      constructor
      · intro hin
        refine ⟨mem_cons_of_mem a hin, fun heq => honce.1 ?_⟩
        rw [ha, ← heq]
        exact mem_map_of_mem hin
      · rintro ⟨hin, hne⟩
        rcases mem_cons.mp hin with rfl | hin
        · exact absurd ha hne
        · exact hin
    · rw [eraseP_cons_of_neg (by simpa using ha), mem_cons, mem_cons, ih honce.2]
      constructor
      · rintro (rfl | ⟨hin, hne⟩)
        · exact ⟨.inl rfl, ha⟩
        · exact ⟨.inr hin, hne⟩
      · rintro ⟨rfl | hin, hne⟩
        · exact .inl rfl
        · exact .inr ⟨hin, hne⟩

@[simp]
theorem Server.modify_same (s : Server) (c : ConnId) (f : Conn → Conn) :
    (s.modify c f).conns c = f (s.conns c) := update_self ..

theorem Server.modify_other (s : Server) (f : Conn → Conn) (h : d ≠ c) :
    (s.modify c f).conns d = s.conns d := update_of_ne h ..

@[simp]
theorem Server.modify_retained (s : Server) (c : ConnId) (f : Conn → Conn) :
    (s.modify c f).retained = s.retained := rfl

@[simp]
theorem Server.modify_connections (s : Server) (c : ConnId) (f : Conn → Conn) :
    (s.modify c f).connections = s.connections := rfl

theorem Server.modify_modify (s : Server) (c : ConnId) (f g : Conn → Conn) :
    (s.modify c f).modify c g = s.modify c fun x => g (f x) := by
  simp only [Server.modify, update_self, update_idem]

theorem Server.modify_self (s : Server) (c : ConnId) : s.modify c (fun x => x) = s := by
  simp only [Server.modify, update_eq_self]

theorem Server.foldl_modify {α : Type*} (f : α → Conn → Conn) (l : List α) (s : Server)
    (c : ConnId) : l.foldl (fun s a => s.modify c (f a)) s =
      s.modify c fun x => l.foldl (fun x a => f a x) x := by
  induction l generalizing s with
  | nil => exact (s.modify_self c).symm
  | cons a l ih => rw [foldl_cons, ih, Server.modify_modify]; rfl

def Conn.send (env : Env) (b : Bytes) (x : Conn) : Conn :=
  if env.alloc pendingWriteSize ∧ env.write b then { x with sent := x.sent ++ [b] } else x

def Conn.nextPid (qos : ℕ) (x : Conn) : UInt16 := if qos > 0 then nextId x.nextPacketId else 0

def Conn.draw (qos : ℕ) (x : Conn) : Conn :=
  if qos > 0 then { x with nextPacketId := nextId x.nextPacketId } else x

def Conn.publication (qos : ℕ) (retain : Bool) (topic payload : Bytes) (x : Conn) : Bytes :=
  encoded fun buf =>
    encodePublishIn x.version buf (UInt8.ofNat qos) retain (x.nextPid qos) topic payload

def Conn.deliver (env : Env) (qos : ℕ) (retain : Bool) (topic payload : Bytes) (x : Conn) : Conn :=
  (x.draw qos).send env (x.publication qos retain topic payload)

def Conn.publicationSize (qos : ℕ) (retain : Bool) (topic payload : Bytes) (x : Conn) : ℕ :=
  (encodePublishIn x.version [] (UInt8.ofNat qos) retain 0 topic payload).1

def Conn.tryDeliver (env : Env) (qos : ℕ) (retain : Bool) (topic payload : Bytes) (x : Conn) :
    Conn :=
  if x.publicationSize qos retain topic payload = 0 then x
  else if ¬ env.alloc (x.publicationSize qos retain topic payload) then x
  else x.deliver env qos retain topic payload

theorem connSend_eq (env : Env) (s : Server) (c : ConnId) (b : Bytes) :
    connSend env s c b = s.modify c (Conn.send env b) := by
  unfold connSend Conn.send
  split
  · rfl
  · exact (s.modify_self c).symm

theorem Server.modify_congr {f g : Conn → Conn} (h : f (s.conns c) = g (s.conns c)) :
    s.modify c f = s.modify c g := by
  unfold Server.modify
  rw [h]

theorem publishTo_cases (env : Env) (s : Server) (c : ConnId) (qos : ℕ) (retain : Bool)
    (topic payload : Bytes) : publishTo env s c qos retain topic payload = none ∧
        (s.conns c).tryDeliver env qos retain topic payload = s.conns c ∨
      publishTo env s c qos retain topic payload =
        some (s.modify c (Conn.tryDeliver env qos retain topic payload)) := by
  unfold publishTo
  dsimp only
  by_cases hsize : (s.conns c).publicationSize qos retain topic payload = 0
  · refine .inl ⟨if_pos hsize, ?_⟩
    unfold Conn.tryDeliver
    rw [if_pos hsize]
  · have hsize' := hsize
    unfold Conn.publicationSize at hsize'
    rw [if_neg hsize']
    by_cases hmem : env.alloc ((s.conns c).publicationSize qos retain topic payload) = true
    · refine .inr ?_
      have hmem' : ¬ ¬ env.alloc ((encodePublishIn (s.conns c).version [] (UInt8.ofNat qos) retain 0
        topic payload).1) = true := not_not.mpr hmem
      have htry : (s.conns c).tryDeliver env qos retain topic payload =
          (s.conns c).deliver env qos retain topic payload := by
        unfold Conn.tryDeliver
        rw [if_neg hsize, if_neg (not_not.mpr hmem)]
      rw [if_neg hmem', Server.modify_congr htry]
      split
      · next hq =>
        rw [connSend_eq, Server.modify_modify]
        refine congrArg some (Server.modify_congr ?_)
        unfold Conn.deliver Conn.draw Conn.publication Conn.nextPid
        rw [if_pos hq, if_pos hq]
      · next hq =>
        rw [connSend_eq]
        refine congrArg some (Server.modify_congr ?_)
        unfold Conn.deliver Conn.draw Conn.publication Conn.nextPid
        rw [if_neg hq, if_neg hq]
    · refine .inl ⟨if_pos hmem, ?_⟩
      unfold Conn.tryDeliver
      rw [if_neg hsize, if_pos hmem]

theorem publishTo_getD (env : Env) (s : Server) (c : ConnId) (qos : ℕ) (retain : Bool)
    (topic payload : Bytes) : (publishTo env s c qos retain topic payload).getD s =
      s.modify c (Conn.tryDeliver env qos retain topic payload) := by
  rcases publishTo_cases env s c qos retain topic payload with ⟨hnone, hkeep⟩ | hsome
  · rw [hnone, Option.getD_none]
    exact (s.modify_self c).symm.trans (Server.modify_congr hkeep.symm)
  · rw [hsome, Option.getD_some]

section
variable {x : Conn} {qos : ℕ} {retain : Bool} {topic payload b : Bytes}

structure Conn.SameBooks (x y : Conn) : Prop where
  subscriptions : y.subscriptions = x.subscriptions
  pendingQos2Out : y.pendingQos2Out = x.pendingQos2Out
  protocolVersion : y.protocolVersion = x.protocolVersion

theorem Conn.SameBooks.trans {y z : Conn} (h : x.SameBooks y) (h' : y.SameBooks z) :
    x.SameBooks z :=
  ⟨h'.1.trans h.1, h'.2.trans h.2, h'.3.trans h.3⟩

theorem Conn.send_books (env : Env) (b : Bytes) (x : Conn) : x.SameBooks (x.send env b) := by
  unfold Conn.send
  split <;> exact ⟨rfl, rfl, rfl⟩

@[simp]
theorem Conn.send_nextPacketId (env : Env) (b : Bytes) (x : Conn) :
    (x.send env b).nextPacketId = x.nextPacketId := by
  unfold Conn.send
  split <;> rfl

theorem Conn.draw_books (qos : ℕ) (x : Conn) : x.SameBooks (x.draw qos) := by
  unfold Conn.draw
  split <;> exact ⟨rfl, rfl, rfl⟩

@[simp]
theorem Conn.draw_sent (qos : ℕ) (x : Conn) : (x.draw qos).sent = x.sent := by
  unfold Conn.draw
  split <;> rfl

theorem Conn.deliver_books (env : Env) (qos : ℕ) (retain : Bool) (topic payload : Bytes)
    (x : Conn) : x.SameBooks (x.deliver env qos retain topic payload) :=
  (x.draw_books qos).trans (Conn.send_books ..)

theorem Conn.tryDeliver_books (env : Env) (qos : ℕ) (retain : Bool) (topic payload : Bytes)
    (x : Conn) : x.SameBooks (x.tryDeliver env qos retain topic payload) := by
  unfold Conn.tryDeliver
  split
  · exact ⟨rfl, rfl, rfl⟩
  · split
    · exact ⟨rfl, rfl, rfl⟩
    · exact Conn.deliver_books ..

@[simp]
theorem Conn.deliver_nextPacketId : (x.deliver env qos retain topic payload).nextPacketId =
    if qos > 0 then nextId x.nextPacketId else x.nextPacketId := by
  unfold Conn.deliver
  rw [Conn.send_nextPacketId]
  unfold Conn.draw
  split <;> rfl

theorem Conn.send_sent (x : Conn) (b : Bytes) : (x.send env b).sent =
    x.sent ++ if env.alloc pendingWriteSize ∧ env.write b then [b] else [] := by
  unfold Conn.send
  split
  · rfl
  · exact (append_nil _).symm

theorem Conn.deliver_sent : (x.deliver env qos retain topic payload).sent =
    x.sent ++ if env.alloc pendingWriteSize ∧
      env.write (x.publication qos retain topic payload) then [x.publication qos retain topic payload] else [] := by
  unfold Conn.deliver
  rw [Conn.send_sent, Conn.draw_sent]

end

def Conn.forward (env : Env) (topic payload : Bytes) (qos : ℕ) (retain : Bool) (x : Conn) : Conn :=
  match x.subscriptions.find? fun sub => topicMatch sub.filter topic with
  | none => x
  | some sub => x.tryDeliver env (if sub.qos < qos then sub.qos else qos) retain topic payload

def Conn.sendRetained (env : Env) (filter : Bytes) (qos : ℕ) (r : Retained) (x : Conn) : Conn :=
  if topicMatch filter r.topic then
    x.tryDeliver env (if qos < r.qos then qos else r.qos) true r.topic r.payload
  else x

theorem forwardTo_eq (env : Env) (topic payload : Bytes) (qos : ℕ) (retain : Bool) (s : Server)
    (c : ConnId) : forwardTo env topic payload qos retain s c =
      s.modify c (Conn.forward env topic payload qos retain) := by
  unfold forwardTo
  cases hfind : (s.conns c).subscriptions.find? fun sub => topicMatch sub.filter topic with
  | none =>
    have hkeep : s.conns c = (s.conns c).forward env topic payload qos retain := by
      unfold Conn.forward
      rw [hfind]
    exact (s.modify_self c).symm.trans (Server.modify_congr hkeep)
  | some sub =>
    have hforward : (s.conns c).forward env topic payload qos retain = (s.conns c).tryDeliver env
        (if sub.qos < qos then sub.qos else qos) retain topic payload := by
      unfold Conn.forward
      rw [hfind]
    have hle : ¬ ((if sub.qos < qos then sub.qos else qos) = 2 ∧
        env.alloc pendingOutSize = true) := by
      have hgranted := sub.granted
      split <;> omega
    dsimp only
    rcases publishTo_cases env s c (if sub.qos < qos then sub.qos else qos) retain topic
      payload with ⟨hnone, hkeep⟩ | hsome
    · rw [hnone]
      exact (s.modify_self c).symm.trans (Server.modify_congr (hforward.trans hkeep).symm)
    · rw [hsome]
      dsimp only
      rw [if_neg hle]
      exact Server.modify_congr hforward.symm

theorem sendRetained_eq (env : Env) (c : ConnId) (filter : Bytes) (qos : ℕ) (s : Server)
    (r : Retained) : sendRetained env c filter qos s r =
      s.modify c (Conn.sendRetained env filter qos r) := by
  unfold sendRetained
  split
  · next hmatch =>
    rw [publishTo_getD]
    refine Server.modify_congr ?_
    unfold Conn.sendRetained
    rw [if_pos hmatch]
  · next hmatch =>
    refine (s.modify_self c).symm.trans (Server.modify_congr ?_)
    unfold Conn.sendRetained
    rw [if_neg hmatch]

def Conn.subscribe (env : Env) (retained : List Retained) (filter : Bytes) (qos : ℕ) (x : Conn) :
    Conn :=
  retained.foldl (fun x r => x.sendRetained env filter (grantQos qos) r)
    { x with subscriptions := x.subscriptions ++ [⟨filter, grantQos qos, grantQos_le qos⟩] }

theorem onSubscribe_eq {filter : Bytes} (hsub : env.alloc subSize = true)
    (hfilter : env.alloc (filter.length + 1) = true) (s : Server) (c : ConnId) (qos : ℕ) :
    onSubscribe env s c filter qos =
      ((grantQos qos : ℤ), s.modify c (Conn.subscribe env s.retained filter qos)) := by
  unfold onSubscribe
  rw [if_neg (not_not.mpr hsub), if_neg (not_not.mpr hfilter)]
  dsimp only
  have hstep : sendRetained env c filter (grantQos qos) =
      fun s r => s.modify c (Conn.sendRetained env filter (grantQos qos) r) := by
    funext s r
    exact sendRetained_eq env c filter (grantQos qos) s r
  rw [hstep, Server.foldl_modify, Server.modify_modify]
  rfl

theorem Conn.sendRetained_books (env : Env) (filter : Bytes) (qos : ℕ) (r : Retained) (x : Conn) :
    x.SameBooks (x.sendRetained env filter qos r) := by
  unfold Conn.sendRetained
  split
  · exact Conn.tryDeliver_books ..
  · exact ⟨rfl, rfl, rfl⟩

theorem Conn.foldl_sendRetained_books (env : Env) (filter : Bytes) (qos : ℕ) (rs : List Retained)
    (x : Conn) : x.SameBooks (rs.foldl (fun x r => x.sendRetained env filter qos r) x) := by
  induction rs generalizing x with
  | nil => exact ⟨rfl, rfl, rfl⟩
  | cons r rs ih => exact (x.sendRetained_books env filter qos r).trans (ih _)

theorem Conn.subscribe_subscriptions (env : Env) (retained : List Retained) (filter : Bytes)
    (qos : ℕ) (x : Conn) : (x.subscribe env retained filter qos).subscriptions =
      x.subscriptions ++ [⟨filter, grantQos qos, grantQos_le qos⟩] :=
  (Conn.foldl_sendRetained_books ..).subscriptions

end Voxlib.Mqtt
