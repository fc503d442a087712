import Voxlib.Redis.Meaning
import Voxlib.VoxString.Format

/-!
# Commands as RESP arrays (vox_redis_client.c)
-/

namespace Voxlib.Redis
open CStr Decimal VoxString List

/- `"*%d\r\n"` and `"$%zu\r\n%s\r\n"`. -/
def arrayHeader (count : ℕ) : Bytes := 42 :: (decimal count ++ crlf)

def bulk (arg : Bytes) : Bytes := 36 :: (decimal arg.length ++ crlf ++ (arg ++ crlf))

def appendArgs (pool : Mpool) : List Bytes → Str → Outcome
  | [], s => some (0, s)
  | arg :: args, s => do
    let (ret, s) ← appendVformat pool s (bulk arg)
    if ret < 0 then return (-1, s) else appendArgs pool args s

-- build_command_from_argv (vox_redis_client.c:271-292)
def buildCommandFromArgv (pool : Mpool) (out : Str) (argv : List Bytes) : Outcome :=
  if argv = [] then some (-1, out)
  else do
    let (_, out) ← clear out
    let (ret, out) ← appendVformat pool out (arrayHeader argv.length)
    if ret < 0 then return (-1, out) else appendArgs pool argv out

-- build_command (vox_redis_client.c:227-267); `args` are the arguments in front of the NULL
def buildCommand (pool : Mpool) (out : Str) (cmd : Bytes) (args : List Bytes) : Outcome := do
  let (_, out) ← clear out
  let (ret, out) ← appendVformat pool out (arrayHeader (1 + args.length))
  if ret < 0 then return (-1, out)
  else
    let (ret, out) ← appendVformat pool out (bulk cmd)
    if ret < 0 then return (-1, out) else appendArgs pool args out

variable {pool : Mpool} {s : Str} {l : Bytes}

theorem arrayHeader_ne_nil (count : ℕ) : arrayHeader count ≠ [] := cons_ne_nil _ _

theorem bulk_ne_nil (arg : Bytes) : bulk arg ≠ [] := cons_ne_nil _ _

variable {args : List Bytes}

theorem appendArgs_appends (hpool : pool.plentiful)
    (hfits : ∀ arg ∈ args, (bulk arg).length ≤ intMax) (h : Holds s l)
    (hword : l.length + (args.flatMap bulk).length + 2 ≤ 2 ^ 63) :
    ∃ t, appendArgs pool args s = some (0, t) ∧ Holds t (l ++ args.flatMap bulk) := by
  induction args generalizing s l with
  | nil => exact ⟨s, rfl, (append_nil l).symm ▸ h⟩
  | cons arg args ih =>
    rw [flatMap_cons, length_append] at hword
    obtain ⟨ret, t, hcall, hret, ht⟩ := appendVformat_appends hpool h (bulk_ne_nil arg)
      (hfits arg (mem_cons_self ..)) (by omega)
    obtain ⟨u, hrest, hu⟩ := ih (fun a ha => hfits a (mem_cons_of_mem arg ha)) ht
      (by rw [length_append]; omega)
    refine ⟨u, ?_, ?_⟩
    · unfold appendArgs
      rw [hcall]
      show (if ret < 0 then some (-1, t) else appendArgs pool args t) = _
      rw [if_neg (by omega)]
      exact hrest
    · rw [flatMap_cons, ← append_assoc]
      exact hu

theorem clear_holds (h : Holds s l) : ∃ t, clear s = some (0, t) ∧ Holds t [] := by
  obtain ⟨ret, t, hcall, hcase⟩ := clear_leaves h
  have hzero : ret = 0 := by
    obtain ⟨data, -, hend⟩ := Option.bind_eq_some_iff.mp hcall
    exact (Prod.ext_iff.mp (Option.some.inj hend)).1.symm
  rcases hcase with ⟨-, ht⟩ | ⟨hneg, -⟩
  · exact ⟨t, hzero ▸ hcall, ht⟩
  · rw [hzero] at hneg
    exact absurd hneg (by decide)

def command (args : List Bytes) : Bytes := arrayHeader args.length ++ args.flatMap bulk

theorem decimal_length {k n : ℕ} (h : n < 10 ^ (k + 1)) : (decimal n).length ≤ k + 1 := by
  induction k generalizing n with
  | zero =>
    rw [decimal_last, if_pos (by omega)]
    exact le_refl 1
  | succ k ih =>
    rw [decimal_last, length_append, length_singleton]
    split
    · exact Nat.succ_le_succ (Nat.zero_le _)
    · have hrest := ih (n := n / 10) (by omega)
      omega

theorem arrayHeader_length {n : ℕ} (hn : n ≤ intMax) : (arrayHeader n).length ≤ 13 := by
  have hdigits : (decimal n).length ≤ 9 + 1 := decimal_length (by unfold intMax at hn; omega)
  unfold arrayHeader
  rw [length_cons, length_append]
  have hend : crlf.length = 2 := rfl
  omega

theorem command_length (hcount : args.length ≤ intMax)
    (hfits : ∀ arg ∈ args, (bulk arg).length ≤ intMax) : (command args).length + 2 ≤ 2 ^ 63 := by
  have hsum : (args.flatMap bulk).length ≤ args.length * intMax := by
    clear hcount
    induction args with
    | nil => exact Nat.zero_le _
    | cons arg args ih =>
      have hhead := hfits arg (mem_cons_self ..)
      have htail := ih fun a ha => hfits a (mem_cons_of_mem arg ha)
      rw [flatMap_cons, length_append, length_cons, Nat.add_mul, Nat.one_mul]
      omega
  have hprod : args.length * intMax ≤ intMax * intMax := Nat.mul_le_mul_right _ hcount
  have hmax : intMax * intMax + 66 ≤ 2 ^ 63 := by
    unfold intMax
    norm_num
  have hheader := arrayHeader_length hcount
  unfold command
  rw [length_append]
  omega

theorem build_writes (hpool : pool.plentiful) (h : Holds s l) {cmd : Bytes}
    (hcount : (cmd :: args).length ≤ intMax)
    (hfits : ∀ arg ∈ cmd :: args, (bulk arg).length ≤ intMax) :
    (∃ t, buildCommandFromArgv pool s (cmd :: args) = some (0, t) ∧
      Holds t (command (cmd :: args))) ∧
    ∃ t, buildCommand pool s cmd args = some (0, t) ∧ Holds t (command (cmd :: args)) := by
  obtain ⟨t, hclear, ht⟩ := clear_holds h
  have hlength := command_length hcount hfits
  unfold command at hlength
  rw [length_append] at hlength
  have hheader : (arrayHeader (cmd :: args).length).length ≤ intMax :=
    (arrayHeader_length hcount).trans (by decide)
  obtain ⟨ret, u, hcall, hret, hu⟩ := appendVformat_appends hpool ht
    (arrayHeader_ne_nil (cmd :: args).length) hheader (by rw [length_nil]; omega)
  rw [nil_append] at hu
  constructor
  · obtain ⟨w, hargs, hw⟩ := appendArgs_appends hpool hfits hu (by omega)
    refine ⟨w, ?_, hw⟩
    unfold buildCommandFromArgv
    rw [if_neg (cons_ne_nil _ _), hclear]
    show (appendVformat pool t (arrayHeader (cmd :: args).length)).bind _ = _
    rw [hcall]
    show (if ret < 0 then some (-1, u) else appendArgs pool (cmd :: args) u) = _
    rw [if_neg (by omega)]
    exact hargs
  · have hsize : (arrayHeader (cmd :: args).length).length + (bulk cmd).length +
        (args.flatMap bulk).length + 2 ≤ 2 ^ 63 := by
      rw [flatMap_cons, length_append] at hlength
      omega
    obtain ⟨ret', v, hcall', hret', hv⟩ := appendVformat_appends hpool hu (bulk_ne_nil cmd)
      (hfits cmd (mem_cons_self ..)) (by omega)
    obtain ⟨w, hargs, hw⟩ := appendArgs_appends hpool
      (fun a ha => hfits a (mem_cons_of_mem cmd ha)) hv
      (by rw [length_append]; omega)
    refine ⟨w, ?_, ?_⟩
    · have hcount' : 1 + args.length = (cmd :: args).length := by
        rw [length_cons, Nat.add_comm]
      unfold buildCommand
      rw [hclear, hcount']
      show (appendVformat pool t (arrayHeader (cmd :: args).length)).bind _ = _
      rw [hcall]
      show (if ret < 0 then some (-1, u) else
        (appendVformat pool u (bulk cmd)).bind fun r =>
          if r.1 < 0 then some (-1, r.2) else appendArgs pool args r.2) = _
      rw [if_neg (by omega), hcall', Option.bind_some, if_neg (by dsimp only; omega)]
      exact hargs
    · unfold command
      rw [flatMap_cons, ← append_assoc]
      exact hw

theorem decimal_injective {n m : ℕ} (h : decimal n = decimal m) : n = m := by
  have hlast (n m : ℕ) (h : [UInt8.ofNat (48 + n % 10)] = [UInt8.ofNat (48 + m % 10)]) :
      n % 10 = m % 10 := by
    have hbyte := congrArg UInt8.toNat (List.cons.inj h).1
    rw [digit_toNat, digit_toNat] at hbyte
    omega
  induction n using decimal_induction generalizing m with
  | digit n hn =>
    rw [decimal_last n, decimal_last m, if_pos hn] at h
    obtain ⟨hfront, hend⟩ := append_inj' h rfl
    have hm : m < 10 := by
      by_contra hm
      rw [if_neg hm] at hfront
      exact decimal_ne_nil _ hfront.symm
    have hmod := hlast n m hend
    omega
  | more n hn ih =>
    rw [decimal_last n, decimal_last m, if_neg (Nat.not_lt.mpr hn)] at h
    obtain ⟨hfront, hend⟩ := append_inj' h rfl
    have hm : ¬ m < 10 := by
      intro hm
      rw [if_pos hm] at hfront
      exact decimal_ne_nil _ hfront
    rw [if_neg hm] at hfront
    have hmod := hlast n m hend
    have hdiv := ih hfront
    omega

theorem signed_nat (n : ℕ) : signed n = decimal n := if_neg (by omega)

theorem decimal_ne_negative (n : ℕ) (m : ℤ) (hm : m < 0) : decimal n ≠ signed m := by
  intro h
  unfold signed at h
  rw [if_pos hm] at h
  have hdigit := decimal_digits n 45 (h ▸ mem_cons_self ..)
  exact absurd hdigit.1 (by decide)

theorem line_unique {a b x y : Bytes} (ha : ∀ c ∈ a, c ≠ 13) (hb : ∀ c ∈ b, c ≠ 13)
    (h : a ++ (crlf ++ x) = b ++ (crlf ++ y)) : a = b ∧ x = y := by
  induction a generalizing b with
  | nil =>
    cases b with
    | nil => exact ⟨rfl, append_cancel_left h⟩
    | cons d b => exact absurd (List.cons.inj h).1.symm (hb d (mem_cons_self ..))
  | cons c a ih =>
    cases b with
    | nil => exact absurd (List.cons.inj h).1 (ha c (mem_cons_self ..))
    | cons d b =>
      obtain ⟨rfl, hrest⟩ := List.cons.inj h
      obtain ⟨rfl, hxy⟩ := ih (fun e he => ha e (mem_cons_of_mem c he))
        (fun e he => hb e (mem_cons_of_mem c he)) hrest
      exact ⟨rfl, hxy⟩

theorem decimal_plain (n : ℕ) : ∀ c ∈ decimal n, c ≠ 13 := by
  rw [← signed_nat]
  exact signed_plain n

theorem bulk_unique {arg x y : Bytes} {v : Value} (h : bulk arg ++ x = v.encode ++ y) :
    v = .bulkString arg ∧ x = y := by
  have hcode (c : UInt8) (hc : c ≠ 36) (d : Bytes) (hd : v.encode = c :: d) : False := by
    rw [hd] at h
    exact hc (List.cons.inj h).1.symm
  cases v with
  | simpleString s => exact (hcode 43 (by decide) _ (by rw [Value.encode])).elim
  | error s => exact (hcode 45 (by decide) _ (by rw [Value.encode])).elim
  | integer n => exact (hcode 58 (by decide) _ (by rw [Value.encode])).elim
  | nullArray => exact (hcode 42 (by decide) _ (by rw [Value.encode])).elim
  | array vs => exact (hcode 42 (by decide) _ (by rw [Value.encode])).elim
  | null =>
    rw [Value.encode] at h
    simp only [bulk, cons_append, append_assoc, List.cons.injEq, true_and] at h
    obtain ⟨hlen, -⟩ := line_unique (decimal_plain _) (signed_plain _) h
    exact (decimal_ne_negative _ _ (by decide) hlen).elim
  | bulkString s =>
    rw [Value.encode, signed_nat] at h
    simp only [bulk, cons_append, append_assoc, List.cons.injEq, true_and] at h
    obtain ⟨hlen, hrest⟩ := line_unique (decimal_plain _) (decimal_plain _) h
    obtain ⟨rfl, hend⟩ := append_inj hrest (decimal_injective hlen)
    exact ⟨rfl, append_cancel_left hend⟩

theorem bulks_unique {vs : List Value} {x : Bytes} (hlen : args.length = vs.length)
    (h : args.flatMap bulk = encodeAll vs ++ x) : vs = args.map .bulkString ∧ x = [] := by
  induction args generalizing vs with
  | nil =>
    obtain rfl := length_eq_zero_iff.mp hlen.symm
    rw [encodeAll] at h
    exact ⟨rfl, h.symm⟩
  | cons arg args ih =>
    cases vs with
    | nil => simp at hlen
    | cons v vs =>
      rw [flatMap_cons, encodeAll, append_assoc] at h
      obtain ⟨rfl, hrest⟩ := bulk_unique h
      obtain ⟨rfl, rfl⟩ := ih (Nat.succ.inj hlen) hrest
      exact ⟨rfl, rfl⟩

theorem encodeAll_bulk (args : List Bytes) :
    encodeAll (args.map .bulkString) = args.flatMap bulk := by
  induction args with
  | nil => rw [map_nil, encodeAll, flatMap_nil]
  | cons arg args ih =>
    rw [map_cons, encodeAll, ih, flatMap_cons, Value.encode, signed_nat]
    rfl

theorem command_read (args : List Bytes) (v : Value) (x : Bytes) :
    command args = v.encode ++ x ↔ v = .array (args.map .bulkString) ∧ x = [] := by
  constructor
  · intro h
    have hcode (c : UInt8) (hc : c ≠ 42) (d : Bytes) (hd : v.encode = c :: d) : False := by
      rw [hd] at h
      exact hc (List.cons.inj h).1.symm
    cases v with
    | simpleString s => exact (hcode 43 (by decide) _ (by rw [Value.encode])).elim
    | error s => exact (hcode 45 (by decide) _ (by rw [Value.encode])).elim
    | integer n => exact (hcode 58 (by decide) _ (by rw [Value.encode])).elim
    | bulkString s => exact (hcode 36 (by decide) _ (by rw [Value.encode])).elim
    | null => exact (hcode 36 (by decide) _ (by rw [Value.encode])).elim
    | nullArray =>
      rw [Value.encode] at h
      simp only [command, arrayHeader, cons_append, append_assoc, List.cons.injEq,
        true_and] at h
      obtain ⟨hlen, -⟩ := line_unique (decimal_plain _) (signed_plain _) h
      exact (decimal_ne_negative _ _ (by decide) hlen).elim
    | array vs =>
      rw [Value.encode, signed_nat] at h
      simp only [command, arrayHeader, cons_append, append_assoc, List.cons.injEq,
        true_and] at h
      obtain ⟨hlen, hrest⟩ := line_unique (decimal_plain _) (decimal_plain _) h
      obtain ⟨rfl, rfl⟩ := bulks_unique (decimal_injective hlen) hrest
      exact ⟨rfl, rfl⟩
  · rintro ⟨rfl, rfl⟩
    rw [Value.encode, encodeAll_bulk, signed_nat, length_map, append_nil]
    rfl

/-- Both functions write the same bytes, and these are read as the array of the arguments, as long
as no argument is longer with its length than the largest int. -/
theorem build_read (hpool : pool.plentiful) (h : Holds s l) {cmd : Bytes} {args : List Bytes}
    (hcount : (cmd :: args).length ≤ intMax)
    (hfits : ∀ arg ∈ cmd :: args, (bulk arg).length ≤ intMax) :
    ∃ t u, buildCommandFromArgv pool s (cmd :: args) = some (0, t) ∧
      buildCommand pool s cmd args = some (0, u) ∧ contents t = contents u ∧
      ∀ (v : Value) (x : Bytes), contents t = v.encode ++ x ↔
        v = .array ((cmd :: args).map .bulkString) ∧ x = [] := by
  obtain ⟨⟨t, hargv, ht⟩, u, hcmd, hu⟩ := build_writes hpool h hcount hfits
  refine ⟨t, u, hargv, hcmd, ht.contents.trans hu.contents.symm, fun v x => ?_⟩
  rw [ht.contents]
  exact command_read (cmd :: args) v x

theorem zeroedPool_plentiful : zeroedPool.plentiful := fun _ => Option.some_ne_none _

theorem emptyStr_holds : Holds emptyStr [] :=
  ⟨rfl, rfl, by decide, List.replicate 31 0, rfl⟩

/- "SET", "%s", and CR LF. -/
theorem set_read : ∃ t u,
    buildCommandFromArgv zeroedPool emptyStr [lit "SET", lit "%s", crlf] = some (0, t) ∧
      buildCommand zeroedPool emptyStr (lit "SET") [lit "%s", crlf] = some (0, u) ∧
      contents t = contents u ∧ ∀ (v : Value) (x : Bytes), contents t = v.encode ++ x ↔
        v = .array ([lit "SET", lit "%s", crlf].map .bulkString) ∧ x = [] :=
  build_read zeroedPool_plentiful emptyStr_holds (by decide) (by decide)

def longest : Bytes := List.replicate (2 ^ 31 - 2) 97

theorem bulk_long {arg : Bytes} (hlong : intMax < (bulk arg).length) (s : Str) :
    appendVformat pool s (bulk arg) = some (-1, s) := by
  unfold appendVformat
  refine if_pos ?_
  unfold vsnprintfResult
  rw [if_neg (by omega)]
  decide

theorem build_long {arg : Bytes} (hpool : pool.plentiful) (h : Holds s l)
    (hlong : intMax < (bulk arg).length) : (∃ t, buildCommandFromArgv pool s [arg] = some (-1, t)) ∧
      ∃ t, buildCommand pool s arg [] = some (-1, t) := by
  obtain ⟨t, hclear, ht⟩ := clear_holds h
  obtain ⟨ret, u, hcall, hret, -⟩ := appendVformat_appends hpool ht (arrayHeader_ne_nil 1)
    (by decide) (by decide)
  constructor
  · refine ⟨u, ?_⟩
    unfold buildCommandFromArgv
    rw [if_neg (cons_ne_nil _ _), hclear]
    show (appendVformat pool t (arrayHeader 1)).bind _ = _
    rw [hcall]
    show (if ret < 0 then some (-1, u) else appendArgs pool [arg] u) = _
    unfold appendArgs
    rw [if_neg (by omega), bulk_long hlong]
    rfl
  · refine ⟨u, ?_⟩
    unfold buildCommand
    rw [hclear]
    show (appendVformat pool t (arrayHeader 1)).bind _ = _
    rw [hcall]
    show (if ret < 0 then some (-1, u) else (appendVformat pool u (bulk arg)).bind fun r =>
      if r.1 < 0 then some (-1, r.2) else appendArgs pool [] r.2) = _
    rw [if_neg (by omega), bulk_long hlong]
    rfl

/-- It cannot be formatted. -/
theorem longest_refused : longest.length < intMax ∧
    (∃ t, buildCommandFromArgv zeroedPool emptyStr [longest] = some (-1, t)) ∧
    ∃ t, buildCommand zeroedPool emptyStr longest [] = some (-1, t) := by
  have hlength : longest.length = 2 ^ 31 - 2 := length_replicate
  have hlong : intMax < (bulk longest).length := by
    have hdecimal := length_pos_iff.mpr (decimal_ne_nil longest.length)
    have hend : crlf.length = 2 := rfl
    unfold bulk intMax
    rw [length_cons, length_append, length_append, length_append]
    omega
  refine ⟨?_, build_long zeroedPool_plentiful emptyStr_holds hlong⟩
  rw [hlength]
  decide

end Voxlib.Redis
