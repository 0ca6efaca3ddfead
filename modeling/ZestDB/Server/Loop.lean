import ZestDB.Server.Reply

/-! The loop over the commands of a payload: how far each turn takes it, for all sizes a client may
announce. -/

namespace Zest

open Foundations

lemma ntohl_lt {bytes : Bytes} (h : bytes.length = 4) : ntohl bytes < 2 ^ 32 := by
  have hlt := leValue_lt bytes.reverse
  rw [List.length_reverse, h] at hlt
  exact hlt.trans_eq (by norm_num)

lemma htonl_ntohl {bytes : Bytes} (h : bytes.length = 4) : htonl (ntohl bytes) = bytes := by
  have hback := leBytes_leValue bytes.reverse
  rw [List.length_reverse, h] at hback
  rw [htonl, ntohl, hback, List.reverse_reverse]

def announced (payload : Bytes) (offset : ℕ) : ℕ := ntohl ((payload.drop offset).take 4)

/-- The next turn takes the loop on, with just the bytes that were announced. -/
def Batch.Advances (payload : Bytes) (b : Batch) : Prop :=
  ∀ cmd next, b.turn payload = .command cmd next →
    b.offset < next ∧ next ≤ payload.length ∧ cmd.length = announced payload b.offset ∧
      cmd = (payload.drop (b.offset + 4)).take cmd.length

/-- Behind complete commands stands a size with which the offset wraps. -/
def Wraps (payload : Bytes) : Prop :=
  ∃ cmds size rest, payload = payloadOf cmds ++ (htonl size ++ rest) ∧ size < 2 ^ 32 ∧
    2 ^ 32 ≤ (payloadOf cmds).length + 4 + size

lemma payloadOf_concat (cmds : List Bytes) (cmd : Bytes) :
    payloadOf (cmds ++ [cmd]) = payloadOf cmds ++ (htonl cmd.length ++ cmd) := by
  simp [payloadOf]

lemma payloadOf_concat_append (cmds : List Bytes) (cmd rest : Bytes) :
    payloadOf (cmds ++ [cmd]) ++ rest = payloadOf cmds ++ (htonl cmd.length ++ (cmd ++ rest)) := by
  simp [payloadOf]

section Turn

variable {b : Batch} {cmds : List Bytes} {rest : Bytes} {size next : ℕ} {cmd : Bytes}

lemma announced_append (hsize : size < 2 ^ 32) :
    announced (payloadOf cmds ++ (htonl size ++ rest)) (payloadOf cmds).length = size := by
  rw [announced, List.drop_left' rfl, List.take_left' (htonl_length size), ntohl_htonl hsize]

lemma turn_command (hmax : (payloadOf cmds ++ rest).length ≤ MAX_PAYLOAD_SIZE)
    (hoff : b.offset = (payloadOf cmds).length)
    (h : b.turn (payloadOf cmds ++ rest) = .command cmd next) :
    ∃ size tail, rest = htonl size ++ tail ∧ size < 2 ^ 32 ∧ cmd = tail.take size ∧
      next = ((payloadOf cmds).length + 4 + size) % 2 ^ 32 ∧
        next ≤ (payloadOf cmds ++ rest).length := by
  have hlt : MAX_PAYLOAD_SIZE < 2 ^ 31 := by decide
  simp only [Batch.turn, hoff, List.drop_left' rfl] at h
  split_ifs at h with hin hsize hnext
  have hstart : ((payloadOf cmds).length + 4) % 2 ^ 32 = (payloadOf cmds).length + 4 := by
    rw [Nat.mod_eq_of_lt]
    omega
  rw [hstart] at h hsize hnext
  rw [List.length_append] at hsize
  have hfour : (rest.take 4).length = 4 := by
    rw [List.length_take]
    omega
  obtain ⟨hcmd, hnexteq⟩ := Turn.command.inj h
  refine ⟨ntohl (rest.take 4), rest.drop 4, ?_, ntohl_lt hfour, ?_, hnexteq.symm, ?_⟩
  · rw [htonl_ntohl hfour, List.take_append_drop]
  · rw [← hcmd, ← List.drop_drop, List.drop_left' rfl]
  · rw [← hnexteq]
    exact not_lt.mp hnext

lemma turn_size (hmax : (payloadOf cmds ++ (htonl size ++ rest)).length ≤ MAX_PAYLOAD_SIZE)
    (hoff : b.offset = (payloadOf cmds).length) (hopen : b.shouldClose = false)
    (hsize : size < 2 ^ 32) (hnext : ((payloadOf cmds).length + 4 + size) % 2 ^ 32 ≤
      (payloadOf cmds).length + 4 + rest.length) :
    b.turn (payloadOf cmds ++ (htonl size ++ rest)) =
      .command (rest.take size) (((payloadOf cmds).length + 4 + size) % 2 ^ 32) := by
  have hlt : MAX_PAYLOAD_SIZE < 2 ^ 31 := by decide
  have hlen : (payloadOf cmds ++ (htonl size ++ rest)).length =
      (payloadOf cmds).length + (4 + rest.length) := by simp
  have hstart : ((payloadOf cmds).length + 4) % 2 ^ 32 = (payloadOf cmds).length + 4 := by
    rw [Nat.mod_eq_of_lt]
    omega
  have hread :
      ntohl (((payloadOf cmds ++ (htonl size ++ rest)).drop (payloadOf cmds).length).take 4) =
        size :=
    announced_append hsize
  have htail : (payloadOf cmds ++ (htonl size ++ rest)).drop ((payloadOf cmds).length + 4) =
      rest := by
    rw [← List.drop_drop, List.drop_left' rfl, List.drop_left' (htonl_length size)]
  simp only [Batch.turn, hoff, hstart, hread, htail]
  rw [if_pos ⟨by omega, hopen⟩, if_neg (by omega), if_neg (by omega)]

lemma turn_listed (hmax : (payloadOf (cmds ++ [cmd]) ++ rest).length ≤ MAX_PAYLOAD_SIZE)
    (hoff : b.offset = (payloadOf cmds).length) (hopen : b.shouldClose = false) :
    b.turn (payloadOf (cmds ++ [cmd]) ++ rest) =
      .command cmd (payloadOf (cmds ++ [cmd])).length := by
  have hlt : MAX_PAYLOAD_SIZE < 2 ^ 31 := by decide
  rw [payloadOf_concat_append] at hmax ⊢
  have hlen : (payloadOf cmds).length + (4 + (cmd.length + rest.length)) ≤ MAX_PAYLOAD_SIZE := by
    simpa only [List.length_append, htonl_length] using hmax
  have hstraight : ((payloadOf cmds).length + 4 + cmd.length) % 2 ^ 32 =
      (payloadOf cmds).length + 4 + cmd.length := by
    rw [Nat.mod_eq_of_lt]
    omega
  have hturn := turn_size hmax hoff hopen (by omega) (by rw [hstraight, List.length_append]; omega)
  rw [hturn, hstraight, List.take_left' rfl, payloadOf_concat, List.length_append,
    List.length_append, htonl_length, Nat.add_assoc]

lemma turn_wraps (hmax : (payloadOf cmds ++ (htonl size ++ rest)).length ≤ MAX_PAYLOAD_SIZE)
    (hoff : b.offset = (payloadOf cmds).length) (hopen : b.shouldClose = false)
    (hsize : size < 2 ^ 32) (hwrap : 2 ^ 32 ≤ (payloadOf cmds).length + 4 + size) :
    b.turn (payloadOf cmds ++ (htonl size ++ rest)) =
      .command (rest.take size) ((payloadOf cmds).length + 4 + size - 2 ^ 32) := by
  have hlt : MAX_PAYLOAD_SIZE < 2 ^ 31 := by decide
  have hlen : (payloadOf cmds).length ≤ MAX_PAYLOAD_SIZE := by
    simp only [List.length_append] at hmax
    omega
  have hnext : ((payloadOf cmds).length + 4 + size) % 2 ^ 32 =
      (payloadOf cmds).length + 4 + size - 2 ^ 32 := by
    rw [Nat.mod_eq_sub_mod hwrap, Nat.mod_eq_of_lt]
    omega
  rw [turn_size hmax hoff hopen hsize (by omega), hnext]

end Turn

section Run

variable {n : ℕ} [NeZero n] {pf : Platform} {sha256 : Bytes → Bytes} {payload : Bytes}
  {s s' : Session} {hs : List (Handling n)} {b : Batch}

lemma Served.boundary (hmax : payload.length ≤ MAX_PAYLOAD_SIZE) (hw : ¬ Wraps payload)
    (h : Served pf sha256 payload s hs s' b) :
    ∃ rest, payload = payloadOf (hs.map Handling.cmd) ++ rest ∧
      b.offset = (payloadOf (hs.map Handling.cmd)).length := by
  induction h with
  | start => exact ⟨payload, rfl, rfl⟩
  | @turn hs b offset h _ hturn ih =>
    obtain ⟨rest, rfl, hoff⟩ := ih
    obtain ⟨size, tail, rfl, hsize, hcmd, hnext, hle⟩ := turn_command hmax hoff hturn
    have hstraight : (payloadOf (hs.map Handling.cmd)).length + 4 + size < 2 ^ 32 :=
      not_le.mp fun hover => hw ⟨_, size, tail, rfl, hsize, hover⟩
    rw [Nat.mod_eq_of_lt hstraight] at hnext
    simp only [List.length_append, htonl_length] at hle
    have hlen : h.cmd.length = size := by
      rw [hcmd, List.length_take]
      omega
    refine ⟨tail.drop size, ?_, ?_⟩
    · rw [List.map_append, List.map_singleton, payloadOf_concat, hlen, hcmd]
      simp
    · rw [List.map_append, List.map_singleton, payloadOf_concat]
      simp only [List.length_append, htonl_length, hlen]
      change offset = _
      omega

omit [NeZero n] in
lemma four_each (hs : List (Handling n)) :
    hs.length * 4 ≤ (payloadOf (hs.map Handling.cmd)).length := by
  induction hs with
  | nil => simp
  | cons h hs ih =>
    simp only [payloadOf, List.map_cons, List.flatMap_cons, List.length_append, htonl_length,
      List.length_cons] at ih ⊢
    omega

lemma Served.advances (hmax : payload.length ≤ MAX_PAYLOAD_SIZE) (hw : ¬ Wraps payload)
    (h : Served pf sha256 payload s hs s' b) : hs.length * 4 ≤ payload.length ∧
    b.Advances payload := by
  obtain ⟨rest, rfl, hoff⟩ := h.boundary hmax hw
  refine ⟨?_, fun cmd next hturn => ?_⟩
  · rw [List.length_append]
    exact (four_each hs).trans (Nat.le_add_right _ _)
  · obtain ⟨size, tail, rfl, hsize, rfl, rfl, hle⟩ := turn_command hmax hoff hturn
    have hstraight : (payloadOf (hs.map Handling.cmd)).length + 4 + size < 2 ^ 32 :=
      not_le.mp fun hover => hw ⟨_, size, tail, rfl, hsize, hover⟩
    rw [Nat.mod_eq_of_lt hstraight] at hle ⊢
    have hlen : (tail.take size).length = size := by
      simp only [List.length_append, htonl_length] at hle
      rw [List.length_take]
      omega
    refine ⟨by omega, hle, ?_, ?_⟩
    · rw [hlen, hoff, announced_append hsize]
    · rw [hlen, hoff, ← List.drop_drop, List.drop_left' rfl, List.drop_left' (htonl_length size)]

def withReader (n : ℕ) [NeZero n] : ZestDB n :=
  ZestDB.new ⟨true, some {}, (∅ : Users).insert (ascii "alice") ⟨[], .Read⟩, true⟩ {} {} {}

def byReader (cmd : Bytes) : Handling n := ⟨{}, ⟨true, ascii "alice"⟩, ⟨withReader n, ∅⟩, cmd⟩

variable (pf sha256) in
lemma byReader_goes_on (cmd : Bytes) :
    ((byReader (n := n) cmd).handled pf sha256).shouldClose = false ∧
      ((byReader (n := n) cmd).handled pf sha256).session = ⟨true, ascii "alice"⟩ := by
  have hrole : (byReader (n := n) cmd).host.db.users.roleOf
      (byReader (n := n) cmd).session.username = some .Read := rfl
  simp only [Handling.handled, Session.handleCommand, hrole]
  exact ⟨rfl, rfl⟩

variable (pf sha256) in
lemma served_commands (cmds : List Bytes) (rest : Bytes)
    (hmax : (payloadOf cmds ++ rest).length ≤ MAX_PAYLOAD_SIZE) :
    ∃ b, Served pf sha256 (payloadOf cmds ++ rest) ⟨true, ascii "alice"⟩
      (cmds.map (byReader (n := n))) ⟨true, ascii "alice"⟩ b ∧
      b.offset = (payloadOf cmds).length ∧ b.shouldClose = false := by
  induction cmds using List.reverseRecOn generalizing rest with
  | nil => exact ⟨{}, .start, rfl, rfl⟩
  | append_singleton cmds cmd ih =>
    have hpay := payloadOf_concat_append cmds cmd rest
    obtain ⟨b, hserved, hoff, hopen⟩ := ih (htonl cmd.length ++ (cmd ++ rest)) (hpay ▸ hmax)
    rw [← hpay] at hserved
    obtain ⟨hclose, hsession⟩ := byReader_goes_on (n := n) pf sha256 cmd
    have hnext := Served.turn (byReader (n := n) cmd) hserved (turn_listed hmax hoff hopen)
    rw [hsession] at hnext
    rw [List.map_append, List.map_singleton]
    exact ⟨_, hnext, rfl, hclose⟩

/-- The loop goes on in order for every payload but those with a size with which the offset
wraps. -/
theorem loop_advances_iff (pf : Platform) (sha256 : Bytes → Bytes)
    (hmax : payload.length ≤ MAX_PAYLOAD_SIZE) :
    (∀ (s s' : Session) (hs : List (Handling n)) (b : Batch), s.authenticated = true →
        Served pf sha256 payload s hs s' b → hs.length * 4 ≤ payload.length ∧ b.Advances payload) ↔
      ¬ Wraps payload := by
  constructor
  · rintro hall ⟨cmds, size, rest, rfl, hsize, hwrap⟩
    obtain ⟨b, hserved, hoff, hopen⟩ := served_commands (n := n) pf sha256 cmds _ hmax
    have hturn := turn_wraps hmax hoff hopen hsize hwrap
    obtain ⟨-, -, hlen, -⟩ := (hall _ _ _ _ rfl hserved).2 _ _ hturn
    rw [hoff, announced_append hsize, List.length_take] at hlen
    have hlt : MAX_PAYLOAD_SIZE < 2 ^ 31 := by decide
    simp only [List.length_append, htonl_length] at hmax
    omega
  · exact fun hw s s' hs b _ hserved => hserved.advances hmax hw

end Run

def wrappingSize : Bytes := [255, 255, 255, 252]

/-- The loop handles one empty command after the other and never gets on. -/
theorem wrappingSize_never_ends :
    wrappingSize.length ≤ MAX_PAYLOAD_SIZE ∧
      ∀ m, ∃ (hs : List (Handling 1)) (b : Batch), hs.length = m ∧
        Served Op.oneHash id wrappingSize ⟨true, ascii "alice"⟩ hs ⟨true, ascii "alice"⟩ b ∧
        b.turn wrappingSize = .command [] 0 ∧ ¬ b.Advances wrappingSize := by
  refine ⟨by decide, fun m => ?_⟩
  obtain ⟨hs, b, hlen, hserved, hoff, hopen⟩ : ∃ (hs : List (Handling 1)) (b : Batch), hs.length =
      m ∧ Served Op.oneHash id wrappingSize ⟨true, ascii "alice"⟩ hs ⟨true, ascii "alice"⟩ b ∧
      b.offset = 0 ∧ b.shouldClose = false := by
    induction m with
    | zero => exact ⟨[], {}, rfl, .start, rfl, rfl⟩
    | succ m ih =>
      obtain ⟨hs, b, rfl, hserved, hoff, hopen⟩ := ih
      have hturn : b.turn wrappingSize = .command [] 0 := by
        simp only [Batch.turn, hoff, hopen]
        decide
      obtain ⟨hclose, hsession⟩ := byReader_goes_on (n := 1) Op.oneHash id []
      have hnext := Served.turn (byReader (n := 1) []) hserved hturn
      rw [hsession] at hnext
      exact ⟨_, _, by simp, hnext, rfl, hclose⟩
  have hturn : b.turn wrappingSize = .command [] 0 := by
    simp only [Batch.turn, hoff, hopen]
    decide
  refine ⟨hs, b, hlen, hserved, hturn, fun hadvances => ?_⟩
  obtain ⟨hlt, -⟩ := hadvances _ _ hturn
  omega

lemma framed_le {cmds done : List Bytes} {size : ℕ} {rest : Bytes}
    (h : payloadOf cmds = payloadOf done ++ (htonl size ++ rest))
    (hmax : (payloadOf cmds).length < 2 ^ 32)
    (hsize : size < 2 ^ 32) : (payloadOf done).length + 4 + size ≤ (payloadOf cmds).length := by
  have hcons : ∀ (c : Bytes) (cs : List Bytes), payloadOf (c :: cs) =
      htonl c.length ++ (c ++ payloadOf cs) := fun c cs => by
    simp [payloadOf]
  have hsame : ∀ {x y : ℕ}, x < 2 ^ 32 → y < 2 ^ 32 → htonl x = htonl y → x = y :=
    fun hx hy heq => by
    rw [← ntohl_htonl hx, heq, ntohl_htonl hy]
  induction done generalizing cmds with
  | nil =>
    cases cmds with
    | nil =>
      have hlen := congrArg List.length h
      simp [payloadOf] at hlen
      omega
    | cons c cs =>
      rw [hcons] at h hmax ⊢
      obtain ⟨hhead, -⟩ := List.append_inj (h.trans (List.nil_append _)) (by simp)
      simp only [List.length_append, htonl_length] at hmax ⊢
      have hc : c.length = size := hsame (by omega) hsize hhead
      simp only [payloadOf, List.flatMap_nil, List.length_nil]
      omega
  | cons d ds ih =>
    rw [hcons, List.append_assoc] at h
    cases cmds with
    | nil =>
      have hlen := congrArg List.length h
      simp [payloadOf] at hlen
      omega
    | cons c cs =>
      have hdmax : d.length < 2 ^ 32 := by
        have hlen := congrArg List.length h
        simp only [List.length_append, htonl_length] at hlen
        omega
      rw [hcons] at h hmax ⊢
      obtain ⟨hhead, htail⟩ := List.append_inj h (by simp)
      simp only [List.length_append, htonl_length] at hmax
      have hc : c.length = d.length := hsame (by omega) hdmax hhead
      rw [List.append_assoc] at htail
      obtain ⟨-, hrest⟩ := List.append_inj htail hc
      have hle := ih hrest (by omega)
      simp only [hcons, List.length_append, htonl_length]
      omega

lemma not_wraps_payloadOf {cmds : List Bytes} (hmax : (payloadOf cmds).length ≤ MAX_PAYLOAD_SIZE) :
    ¬ Wraps (payloadOf cmds) := by
  rintro ⟨done, size, rest, heq, hsize, hwrap⟩
  have hlt : MAX_PAYLOAD_SIZE < 2 ^ 31 := by decide
  have hle := framed_le heq (by omega) hsize
  omega

def framed : List Bytes := [ascii "get a", [], ascii "set b y"]

/-- The loop serves the three commands in order, and never goes back on the way. -/
theorem framed_loop_advances :
    (∃ (hs : List (Handling 1)) (b : Batch),
      Served Op.oneHash id (payloadOf framed) ⟨true, ascii "alice"⟩ hs ⟨true, ascii "alice"⟩ b ∧
        hs.map Handling.cmd = framed ∧ b.offset = (payloadOf framed).length) ∧
      ¬ Wraps (payloadOf framed) ∧
      ∀ (s s' : Session) (hs : List (Handling 1)) (b : Batch), s.authenticated = true →
        Served Op.oneHash id (payloadOf framed) s hs s' b →
        hs.length * 4 ≤ (payloadOf framed).length ∧ b.Advances (payloadOf framed) := by
  have hwraps : ¬ Wraps (payloadOf framed) := not_wraps_payloadOf (by decide)
  refine ⟨?_, hwraps, (loop_advances_iff Op.oneHash id (by decide)).mpr hwraps⟩
  obtain ⟨b, hserved, hoff, -⟩ := served_commands (n := 1) Op.oneHash id framed [] (by decide)
  rw [List.append_nil] at hserved
  exact ⟨_, b, hserved, rfl, hoff⟩

end Zest
