import ZestDB.Server.Loop

/-! The frames of the reference client, `zest_client.py`: what a session makes of the listed
commands, and of a part of one more command behind them. -/

namespace Zest

open Foundations

def encodeCmd (cmd : Bytes) : Bytes := htonl cmd.length ++ cmd

def frameOf (payload : Bytes) : Bytes := htonl payload.length ++ payload

def buildFrame (commands : List Bytes) : Bytes := frameOf (commands.flatMap encodeCmd)

/-- `do_read_size` and the read of `do_read_command`: the payload at the front of what has arrived,
if it is complete and not refused. -/
def readFrame (authenticated : Bool) (arrived : Bytes) : Option (Bytes × Bytes) :=
  let payloadSize := ntohl (arrived.take 4)
  let rest := arrived.drop 4
  if arrived.length < 4 ∨
    payloadSize > (if authenticated then MAX_PAYLOAD_SIZE else MAX_UNAUTHENTICATED_PAYLOAD_SIZE) ∨
      rest.length < payloadSize then none
  else some (rest.take payloadSize, rest.drop payloadSize)

lemma readFrame_frameOf {payload : Bytes} (hmax : payload.length ≤ MAX_PAYLOAD_SIZE)
    (rest : Bytes) :
    readFrame true (frameOf payload ++ rest) = some (payload, rest) := by
  have hlt : MAX_PAYLOAD_SIZE < 2 ^ 32 := by decide
  have hsize : ntohl ((frameOf payload ++ rest).take 4) = payload.length := by
    rw [frameOf, List.append_assoc, List.take_left' (htonl_length _), ntohl_htonl (by omega)]
  have hrest : (frameOf payload ++ rest).drop 4 = payload ++ rest := by
    rw [frameOf, List.append_assoc, List.drop_left' (htonl_length _)]
  have hlen : (frameOf payload ++ rest).length = 4 + (payload.length + rest.length) := by
    simp [frameOf]
  have hlen' : (payload ++ rest).length = payload.length + rest.length := List.length_append
  simp only [readFrame, hsize, hrest, if_true]
  rw [if_neg (by omega), List.take_left' rfl, List.drop_left' rfl]

lemma readFrame_buildFrame {commands : List Bytes}
    (hmax : (payloadOf commands).length ≤ MAX_PAYLOAD_SIZE) (rest : Bytes) :
    readFrame true (buildFrame commands ++ rest) = some (payloadOf commands, rest) :=
  readFrame_frameOf hmax rest

section Run

variable {n : ℕ} [NeZero n] {pf : Platform} {sha256 : Bytes → Bytes} {s s' : Session}
  {hs : List (Handling n)} {cmds : List Bytes} {cut extra rest payload : Bytes} {b b' : Batch}

/-- The commands are handled one after the other by the session `s`, each on a database that knows
its user. -/
structure Attended (s : Session) (cmds : List Bytes) (hs : List (Handling n)) : Prop where
  commands : hs.map Handling.cmd = cmds
  session : ∀ k ∈ hs, k.session = s
  user : ∀ k ∈ hs, (k.host.db.users.roleOf s.username).isSome = true

variable (pf sha256) in
lemma executed_of_user {k : Handling n} (ha : k.session.authenticated = true)
    (hu : (k.host.db.users.roleOf k.session.username).isSome = true) :
    (∃ role, (k.handled pf sha256).executed = some (k.cmd, role)) ∧
    (k.handled pf sha256).shouldClose = false ∧ (k.handled pf sha256).session = k.session := by
  obtain ⟨role, hrole⟩ := Option.isSome_iff_exists.mp hu
  simp only [Handling.handled, Session.handleCommand, ha, hrole]
  exact ⟨⟨role, rfl⟩, rfl, rfl⟩

variable (pf sha256) in
lemma Attended.served (h : Attended s cmds hs) (ha : s.authenticated = true)
    (hmax : (payloadOf cmds ++ rest).length ≤ MAX_PAYLOAD_SIZE) :
    ∃ b, Served pf sha256 (payloadOf cmds ++ rest) s hs s b ∧ b.offset = (payloadOf cmds).length ∧
      b.shouldClose = false := by
  induction hs using List.reverseRecOn generalizing cmds rest with
  | nil =>
    obtain rfl : [] = cmds := h.commands
    exact ⟨{}, .start, rfl, rfl⟩
  | append_singleton hs k ih =>
    obtain ⟨hcmds, hsession, huser⟩ := h
    obtain rfl := hcmds
    rw [List.map_append, List.map_singleton] at hmax ⊢
    have hks : k.session = s := hsession k (by simp)
    have hpay := payloadOf_concat_append (hs.map Handling.cmd) k.cmd rest
    obtain ⟨b, hserved, hoff, hopen⟩ := ih
      ⟨rfl, fun k' hk' => hsession k' (by simp [hk']), fun k' hk' => huser k' (by simp [hk'])⟩
      (hpay ▸ hmax)
    rw [← hpay] at hserved
    obtain ⟨-, hclose, hsame⟩ := executed_of_user pf sha256 (k := k) (by rw [hks]; exact ha)
      (by rw [hks]; exact huser k (by simp))
    have hnext := Served.turn k (by rw [hks]; exact hserved) (turn_listed hmax hoff hopen)
    rw [hsame, hks] at hnext
    exact ⟨_, hnext, rfl, hclose⟩

lemma Served.unique {t t' : Session} {hs' : List (Handling n)}
    (h : Served pf sha256 payload s hs t b)
    (h' : Served pf sha256 payload s hs' t' b') (heq : hs = hs') : t = t' ∧ b = b' := by
  induction h generalizing hs' t' b' with
  | start =>
    cases h' with
    | start => exact ⟨rfl, rfl⟩
    | turn k _ _ => simp at heq
  | turn k _ hturn ih =>
    cases h' with
    | start => simp at heq
    | turn k' hserved' hturn' =>
      obtain ⟨hfront, hlast⟩ := List.append_inj' heq rfl
      obtain rfl : k = k' := by simpa using hlast
      obtain ⟨-, rfl⟩ := ih hserved' hfront
      obtain ⟨-, rfl⟩ := Turn.command.inj (hturn.symm.trans hturn')
      exact ⟨rfl, rfl⟩

lemma turn_cut (hmax : (payloadOf cmds ++ cut).length ≤ MAX_PAYLOAD_SIZE)
    (hcut : cut <+: encodeCmd extra) (hne : cut ≠ encodeCmd extra) (hextra : extra.length < 2 ^ 32)
    (hoff : b.offset = (payloadOf cmds).length) (hopen : b.shouldClose = false) :
    b.turn (payloadOf cmds ++ cut) = (if cut = [] then .done else .malformed) ↔
      cut.length < 4 ∨ (payloadOf cmds).length + 4 + extra.length < 2 ^ 32 := by
  have hlt : MAX_PAYLOAD_SIZE < 2 ^ 31 := by decide
  have hlen : (payloadOf cmds ++ cut).length = (payloadOf cmds).length + cut.length :=
    List.length_append
  have hstart : ((payloadOf cmds).length + 4) % 2 ^ 32 = (payloadOf cmds).length + 4 := by
    rw [Nat.mod_eq_of_lt]
    omega
  by_cases h4 : cut.length < 4
  · refine iff_of_true ?_ (Or.inl h4)
    by_cases hnil : cut = []
    · subst hnil
      rw [if_pos rfl, Batch.turn, if_neg (by simp [hoff])]
    · have hpos := List.length_pos_of_ne_nil hnil
      rw [if_neg hnil, Batch.turn, if_pos ⟨by omega, hopen⟩]
      dsimp only
      rw [hoff, hstart, if_pos (by omega)]
  · -- the size of the command is there, and a part of its bytes
    obtain ⟨tail, rfl, htail⟩ : ∃ tail, cut = htonl extra.length ++ tail ∧
        tail.length < extra.length := by
      obtain ⟨missing, hmissing⟩ := hcut
      have hfour := congrArg (List.take 4) hmissing
      rw [List.take_append_of_le_length (by omega), encodeCmd,
        List.take_left' (htonl_length _)] at hfour
      refine ⟨cut.drop 4, by rw [← hfour, List.take_append_drop], ?_⟩
      have htotal := congrArg List.length hmissing
      rw [encodeCmd, List.length_append, List.length_append, htonl_length] at htotal
      have hpos : 0 < missing.length := by
        apply List.length_pos_of_ne_nil
        rintro rfl
        exact hne (by simpa using hmissing)
      rw [List.length_drop]
      omega
    have hnil : htonl extra.length ++ tail ≠ [] := by
      intro h
      have := congrArg List.length h
      simp at this
    have hcutlen : (htonl extra.length ++ tail).length = 4 + tail.length := by
      rw [List.length_append, htonl_length]
    rw [if_neg hnil]
    by_cases hwrap : 2 ^ 32 ≤ (payloadOf cmds).length + 4 + extra.length
    · refine iff_of_false ?_ (by omega)
      rw [turn_wraps hmax hoff hopen hextra hwrap]
      intro h
      cases h
    · refine iff_of_true ?_ (Or.inr (by omega))
      have hnext : ((payloadOf cmds).length + 4 + extra.length) % 2 ^ 32 =
          (payloadOf cmds).length + 4 + extra.length :=
        Nat.mod_eq_of_lt (by omega)
      have hread :
          ntohl
          (((payloadOf cmds ++ (htonl extra.length ++ tail)).drop (payloadOf cmds).length).take 4) =
          extra.length := announced_append hextra
      simp only [Batch.turn, hoff, hstart, hread, hnext]
      rw [if_pos ⟨by omega, hopen⟩, if_neg (by omega), if_pos (by omega)]

/-- The listed commands are executed once each, in order and with their bytes; then the loop stops,
with one more document, for the batch that is malformed, when something stands behind them. -/
structure Exact (pf : Platform) (sha256 : Bytes → Bytes) (s : Session) (cmds : List Bytes)
    (cut : Bytes) (hs : List (Handling n)) : Prop where
  received : ∀ later, readFrame s.authenticated (frameOf (payloadOf cmds ++ cut) ++ later) =
    some (payloadOf cmds ++ cut, later)
  executed : hs.map Handling.cmd = cmds ∧ ∀ k ∈ hs, ∃ role, (k.handled pf sha256).executed =
    some (k.cmd, role)
  stops : ∃ b, Served pf sha256 (payloadOf cmds ++ cut) s hs s b ∧
    b.turn (payloadOf cmds ++ cut) = (if cut = [] then .done else .malformed) ∧
    b.reply pf (payloadOf cmds ++ cut) =
      SEPARATOR.intercalate (hs.map (Handling.document pf sha256) ++
      if cut = [] then [] else [responseToJson pf (ZestDB.failure Messages.MALFORMED_BATCH)]) ++
        [10]

lemma Served.reply_stopped (h : Served pf sha256 payload s hs s' b) (cut : Bytes)
    (hturn : b.turn payload = (if cut = [] then .done else .malformed)) :
    b.reply pf payload = SEPARATOR.intercalate (hs.map (Handling.document pf sha256) ++
      if cut = [] then [] else [responseToJson pf (ZestDB.failure Messages.MALFORMED_BATCH)]) ++
        [10] := by
  have hresult := h.finalResult_eq
  by_cases hcut : cut = []
  · rw [if_pos hcut] at hturn
    rw [Batch.reply, hturn, if_neg (by simp), if_pos hcut, List.append_nil, hresult]
  · rw [if_neg hcut] at hturn
    rw [Batch.reply, hturn, if_pos rfl, if_neg hcut, Batch.answered, hresult]
    by_cases hne : hs = []
    · subst hne
      simp [List.intercalate]
    · have hdocs : hs.map (Handling.document pf sha256) ≠ [] := by simpa using hne
      have hclosed : ∀ d ∈ hs.map (Handling.document pf sha256), Closed SEPARATOR d := by
        intro d hd
        obtain ⟨k, -, rfl⟩ := List.mem_map.mp hd
        exact responseToJson_closed pf _
      rw [if_neg (documents_ne_nil hclosed hdocs), intercalate_concat _ hdocs]

def knowing (n : ℕ) [NeZero n] (username : Bytes) : Host n :=
  ⟨ZestDB.new ⟨true, some {}, (∅ : Users).insert username ⟨[], .Read⟩, true⟩ {} {} {}, ∅⟩

lemma attended_exists (s : Session) (cmds : List Bytes) :
    ∃ hs : List (Handling n), Attended s cmds hs := by
  refine ⟨cmds.map fun cmd => ⟨{}, s, knowing n s.username, cmd⟩, ?_, ?_, ?_⟩
  · rw [List.map_map]
    exact List.map_id _
  · simp
  · intro k hk
    obtain ⟨cmd, -, rfl⟩ := List.mem_map.mp hk
    have hlookup : ((∅ : Users).insert s.username ⟨[], .Read⟩).lookup s.username =
        some ⟨[], .Read⟩ := AList.lookup_insert _
    change ((((∅ : Users).insert s.username ⟨[], .Read⟩).lookup s.username).map
      UserEntry.role).isSome = true
    rw [hlookup]
    rfl

/-- A batch of listed commands and a part of one more is executed as listed, for all databases that
the commands find, unless the part has the size of a command with which the offset wraps. -/
theorem framed_batch_iff (ha : s.authenticated = true)
    (hmax : (payloadOf cmds ++ cut).length ≤ MAX_PAYLOAD_SIZE)
    (hcut : cut <+: encodeCmd extra) (hne : cut ≠ encodeCmd extra)
    (hextra : extra.length < 2 ^ 32) :
    (∀ hs : List (Handling n), Attended s cmds hs → Exact pf sha256 s cmds cut hs) ↔
      cut.length < 4 ∨ (payloadOf cmds).length + 4 + extra.length < 2 ^ 32 := by
  constructor
  · intro hall
    obtain ⟨hs, hatt⟩ := attended_exists (n := n) s cmds
    obtain ⟨b, hserved, hoff, hopen⟩ := hatt.served pf sha256 ha hmax
    obtain ⟨b', hserved', hturn, -⟩ := (hall hs hatt).stops
    obtain ⟨-, rfl⟩ := hserved.unique hserved' rfl
    exact (turn_cut hmax hcut hne hextra hoff hopen).mp hturn
  · intro hfits hs hatt
    obtain ⟨b, hserved, hoff, hopen⟩ := hatt.served pf sha256 ha hmax
    have hturn := (turn_cut hmax hcut hne hextra hoff hopen).mpr hfits
    refine ⟨fun later => ?_, ⟨hatt.commands, fun k hk => ?_⟩, b,
      hserved, hturn, hserved.reply_stopped cut hturn⟩
    · rw [ha]
      exact readFrame_frameOf hmax later
    · have hks := hatt.session k hk
      exact (executed_of_user pf sha256 (by rw [hks]; exact ha)
        (by rw [hks]; exact hatt.user k hk)).1

end Run

def reader : Session := ⟨true, ascii "alice"⟩

def getA : Handling 1 := ⟨{}, reader, knowing 1 (ascii "alice"), ascii "get a"⟩

theorem getA_exact : Exact Op.oneHash id reader [ascii "get a"] [0, 0, 0, 5, 103] [getA] := by
  have hatt : Attended reader [ascii "get a"] [getA] := by
    refine ⟨rfl, fun k hk => ?_, fun k hk => ?_⟩
    · rw [List.mem_singleton.mp hk]
      rfl
    · rw [List.mem_singleton.mp hk]
      rfl
  have hcut : [0, 0, 0, 5, 103] <+: encodeCmd (ascii "get b") := by decide
  exact (framed_batch_iff rfl (by decide) hcut (by decide) (by decide)).mpr
    (.inr (by decide)) [getA] hatt

def longCommand : Bytes := List.replicate (2 ^ 32 - 4) 0

/-- The size of the long command alone is no malformed batch: the offset wraps to the start. -/
theorem wrappingCut_not_exact :
    (wrappingSize <+: encodeCmd longCommand ∧ wrappingSize ≠ encodeCmd longCommand ∧
      longCommand.length < 2 ^ 32) ∧ Attended reader [] ([] : List (Handling 1)) ∧
      ¬ Exact Op.oneHash id reader [] wrappingSize ([] : List (Handling 1)) := by
  have hlength : longCommand.length = 2 ^ 32 - 4 := List.length_replicate
  have hencoded : encodeCmd longCommand = wrappingSize ++ longCommand := by
    rw [encodeCmd, hlength]
    exact congrArg (· ++ longCommand) (by decide)
  refine ⟨⟨⟨longCommand, hencoded.symm⟩, fun h => ?_, by omega⟩, ⟨rfl, by simp, by simp⟩,
    fun h => ?_⟩
  · have hlen := congrArg List.length (h.trans hencoded)
    rw [List.length_append, hlength] at hlen
    omega
  · obtain ⟨b, hserved, hturn, -⟩ := h.stops
    obtain ⟨-, rfl⟩ := Served.unique .start hserved rfl
    revert hturn
    decide

end Zest
