import ZestDB.Server.Document
import ZestDB.Database.Restart

/-! The reply to a batch: one document for each command, with the separator between them. -/

namespace Zest

open Foundations

variable {n : ℕ} [NeZero n] {pf : Platform} {sha256 : Bytes → Bytes}

structure Handling (n : ℕ) where
  moment : Moment n
  session : Session
  host : Host n
  cmd : Bytes

namespace Handling

def handled (pf : Platform) (sha256 : Bytes → Bytes) (h : Handling n) : Handled n :=
  h.session.handleCommand pf sha256 h.moment h.cmd h.host

def document (pf : Platform) (sha256 : Bytes → Bytes) (h : Handling n) : Bytes :=
  responseToJson pf (h.handled pf sha256).result

omit [NeZero n] in
def call (h : Handling n) (role : Role) : Call n :=
  ⟨h.cmd, role, false, h.moment.choices, h.moment.archived, h.moment.rewritten⟩

/-- A `get` of a value that looks like JSON, is accepted as JSON, and has the separator in it. -/
def CopiesSeparator (pf : Platform) (h : Handling n) : Prop :=
  ∃ role word key value, h.host.db.users.roleOf h.session.username = some role ∧
    ZestDB.asked pf (h.call role) = some (word, .get key) ∧
    ZestDB.validateKey h.host.db.settings key = true ∧
    h.host.db.toMap pf key = some value ∧ verbatim pf value = true ∧ SEPARATOR <:+: value

end Handling

lemma get_val {db : ZestDB n} (hg : db.Good) (key : Key) :
    (ZestDB.get pf key db).val =
      if ZestDB.validateKey db.settings key then
        Shard.getResult (db.toMap pf) key else ZestDB.failure Messages.INVALID_KEY := by
  simp only [ZestDB.get, Traced.get_bind]
  cases hk : ZestDB.validateKey db.settings key with
  | false => rfl
  | true =>
    obtain ⟨hval, -⟩ := Shard.get_spec (A := fun _ _ => False) (B := fun _ => False)
      (hg.shards (ShardManager.getShardId pf key)).inv key
    change (db.shardManager.get pf key).1 = Shard.getResult (db.toMap pf) key
    change ((db.shardManager.shards (ShardManager.getShardId pf key)).get key).1 = _
    rw [hval]
    rfl

lemma execCmd_none_plain (db : ZestDB n) {c : Call n} (h : ZestDB.asked pf c = none) :
    ∃ message, (ZestDB.execCmd pf c db).val = some (ZestDB.failure message) ∧ Plain message := by
  simp only [ZestDB.asked] at h
  simp only [ZestDB.execCmd]
  cases hwords : words c.command with
  | nil => exact ⟨_, rfl, Or.inr (by decide)⟩
  | cons name args =>
    simp only [hwords] at h
    split_ifs at h ⊢ with hd
    · refine ⟨Messages.PERMISSION_DENIED, ?_, Or.inr (by decide)⟩
      simp [hd]
    · cases hr : request pf (verbOf name.text) args with
      | error message =>
        refine ⟨message, ?_, ZestDB.request_plain hr⟩
        simp only [hd, hr]
        rfl
      | ok req => simp [hr] at h

namespace Handling

variable {h : Handling n} {role : Role} {word : Bytes} {req : Request} {key : Key}

variable (role word key) in
lemma copiesSeparator_get (hrole : h.host.db.users.roleOf h.session.username = some role)
    (hask : ZestDB.asked pf (h.call role) = some (word, .get key)) :
    h.CopiesSeparator pf ↔ ZestDB.validateKey h.host.db.settings key = true ∧
      ∃ value, h.host.db.toMap pf key = some value ∧ verbatim pf value = true ∧
        SEPARATOR <:+: value := by
  constructor
  · rintro ⟨role', word', key', value, hr, hask', hkey, hval, hverb, hin⟩
    obtain rfl := Option.some.inj (hrole.symm.trans hr)
    obtain ⟨-, hreq⟩ := Prod.mk.inj (Option.some.inj (hask.symm.trans hask'))
    obtain rfl := Request.get.inj hreq
    exact ⟨hkey, value, hval, hverb, hin⟩
  · rintro ⟨hkey, value, hval, hverb, hin⟩
    exact ⟨role, word, key, value, hrole, hask, hkey, hval, hverb, hin⟩

lemma not_copiesSeparator (hrole : h.host.db.users.roleOf h.session.username = some role)
    (hno : ∀ word key, ZestDB.asked pf (h.call role) ≠ some (word, .get key)) :
    ¬ h.CopiesSeparator pf := by
  rintro ⟨role', word, key, value, hr, hask, -⟩
  obtain rfl := Option.some.inj (hrole.symm.trans hr)
  exact hno word key hask

lemma handled_result (ha : h.session.authenticated = true)
    (hrole : h.host.db.users.roleOf h.session.username = some role) :
    (h.handled pf sha256).result = (ZestDB.execCmd pf (h.call role) h.host.db).val.getD
      (ZestDB.failure Messages.INTERNAL_ERROR) := by
  simp only [handled, Session.handleCommand, ha, hrole]
  rfl

lemma handled_revoked (ha : h.session.authenticated = true)
    (hrole : h.host.db.users.roleOf h.session.username = none) :
    (h.handled pf sha256).result = ZestDB.failure Messages.SESSION_REVOKED := by
  simp only [handled, Session.handleCommand, ha, hrole]
  rfl

lemma copies_iff (hj : pf.Json) (hg : h.host.db.Good) (ha : h.session.authenticated = true) :
    (verbatim pf (h.handled pf sha256).result.response = true ∧
      SEPARATOR <:+: (h.handled pf sha256).result.response) ↔
      h.CopiesSeparator pf := by
  cases hrole : h.host.db.users.roleOf h.session.username with
  | none =>
    rw [handled_revoked ha hrole]
    refine iff_of_false (show Plain Messages.SESSION_REVOKED from Or.inr (by decide)).not_copied ?_
    rintro ⟨role, word, key, value, hr, -⟩
    exact absurd (hrole.symm.trans hr) (by simp)
  | some role =>
    rw [handled_result ha hrole]
    cases hask : ZestDB.asked pf (h.call role) with
    | none =>
      obtain ⟨message, hval, hplain⟩ := execCmd_none_plain h.host.db hask
      rw [hval]
      exact iff_of_false hplain.not_copied (not_copiesSeparator hrole (by simp [hask]))
    | some wr =>
      obtain ⟨word, req⟩ := wr
      rw [ZestDB.execCmd_some hask]
      by_cases hreq : ∃ key, req = .get key
      · obtain ⟨key, rfl⟩ := hreq
        rw [copiesSeparator_get _ _ _ hrole hask]
        change (verbatim pf (ZestDB.get pf key h.host.db).val.response = true ∧
          SEPARATOR <:+: (ZestDB.get pf key h.host.db).val.response) ↔ _
        rw [get_val hg]
        split_ifs with hkey
        · cases hval : h.host.db.toMap pf key with
          | none =>
            simp only [Shard.getResult, hval]
            exact iff_of_false
              (show Plain Messages.KEY_NOT_FOUND from Or.inr (by decide)).not_copied (by simp)
          | some value => simp [Shard.getResult, hval, hkey]
        · exact iff_of_false (show Plain Messages.INVALID_KEY from Or.inr
            (by decide)).not_copied (by simp [hkey])
      · have hno : ¬ h.CopiesSeparator pf := by
          refine not_copiesSeparator hrole fun word' key' hk => hreq ⟨key', ?_⟩
          exact (Prod.mk.inj (Option.some.inj (hask.symm.trans hk))).2
        cases hval : (ZestDB.serve pf (h.call role) word req h.host.db).val with
        | none => exact iff_of_false (show Plain Messages.INTERNAL_ERROR from Or.inr
            (by decide)).not_copied hno
        | some r =>
          exact iff_of_false (ZestDB.serve_plain hj (fun k hk => hreq ⟨k, hk⟩) hval).not_copied hno

end Handling

/-- The commands of a batch that were handled, one after the other; whatever other sessions do in
between shows in the database each of them finds. -/
inductive Served (pf : Platform) (sha256 : Bytes → Bytes) (payload : Bytes) (s : Session) :
    List (Handling n) → Session → Batch → Prop
  | start : Served pf sha256 payload s [] s {}
  | turn {hs : List (Handling n)} {b : Batch} {offset : ℕ} (h : Handling n) :
      Served pf sha256 payload s hs h.session b → b.turn payload = .command h.cmd offset →
      Served pf sha256 payload s (hs ++ [h]) (h.handled pf sha256).session
      (b.next pf offset (h.handled pf sha256))

namespace Served

variable {payload : Bytes} {s s' : Session} {hs : List (Handling n)} {b : Batch}

lemma documents_ne_nil {docs : List Bytes} (h : ∀ d ∈ docs, Closed SEPARATOR d) (hne : docs ≠ []) :
    SEPARATOR.intercalate docs ≠ [] := by
  obtain ⟨d, docs, rfl⟩ := List.exists_cons_of_ne_nil hne
  have hd := (h d List.mem_cons_self).ne_nil
  cases docs <;> simp [List.intercalate, hd]

lemma intercalate_concat {docs : List Bytes} (d : Bytes) (hne : docs ≠ []) :
    SEPARATOR.intercalate (docs ++ [d]) = SEPARATOR.intercalate docs ++ SEPARATOR ++ d := by
  induction docs with
  | nil => exact absurd rfl hne
  | cons e docs ih =>
    cases docs with
    | nil => simp [List.intercalate]
    | cons e' docs =>
      have hrest := ih (List.cons_ne_nil _ _)
      simp only [List.intercalate, List.cons_append, List.intersperse_cons_cons,
        List.flatten_cons] at hrest ⊢
      rw [hrest]
      simp

lemma finalResult_eq (h : Served pf sha256 payload s hs s' b) :
    b.finalResult = SEPARATOR.intercalate (hs.map (Handling.document pf sha256)) := by
  induction h with
  | start => rfl
  | @turn hs b offset h _ _ ih =>
    change b.answered pf (h.handled pf sha256).result = _
    rw [List.map_append, Batch.answered]
    by_cases hne : hs = []
    · subst hne
      have hnil : b.finalResult = [] := ih
      rw [if_pos hnil]
      simp [Handling.document, List.intercalate]
    · have hdocs : hs.map (Handling.document pf sha256) ≠ [] := by simpa using hne
      have hclosed : ∀ d ∈ hs.map (Handling.document pf sha256), Closed SEPARATOR d := by
        intro d hd
        obtain ⟨k, -, rfl⟩ := List.mem_map.mp hd
        exact responseToJson_closed pf _
      rw [if_neg (by rw [ih]; exact documents_ne_nil hclosed hdocs), List.map_singleton,
        intercalate_concat _ hdocs, ih]
      rfl

lemma session_eq (ha : s.authenticated = true) (h : Served pf sha256 payload s hs s' b) :
    s' = s ∧ ∀ k ∈ hs, k.session = s := by
  induction h with
  | start => simp
  | turn k _ _ ih =>
    obtain ⟨hk, hall⟩ := ih
    refine ⟨?_, fun k' hk' => ?_⟩
    · rw [← hk]
      simp only [Handling.handled, Session.handleCommand, hk, ha]
      cases k.host.db.users.roleOf s.username <;> rfl
    · rcases List.mem_append.mp hk' with hk' | hk'
      · exact hall k' hk'
      · rw [List.mem_singleton.mp hk', hk]

end Served

lemma ntohl_htonl {x : ℕ} (h : x < 2 ^ 32) : ntohl (htonl x) = x := by
  rw [ntohl, htonl, List.reverse_reverse, leValue_leBytes]
  norm_num at h ⊢
  exact h

@[simp] lemma htonl_length (x : ℕ) : (htonl x).length = 4 := by simp [htonl]

lemma turn_payloadOf (done rest : List Bytes) {b : Batch}
    (hsize : (payloadOf (done ++ rest)).length ≤ MAX_PAYLOAD_SIZE)
    (hoff : b.offset = (payloadOf done).length) :
    b.turn (payloadOf (done ++ rest)) =
      match rest with
      | [] => .done
      | cmd :: _ => if b.shouldClose then
          .done else .command cmd (payloadOf (done ++ [cmd])).length := by
  have hmax : MAX_PAYLOAD_SIZE < 2 ^ 32 := by decide
  cases rest with
  | nil => simp [Batch.turn, hoff]
  | cons cmd rest =>
    have hpay : payloadOf (done ++ cmd :: rest) =
        payloadOf done ++ (htonl cmd.length ++ (cmd ++ payloadOf rest)) := by
      simp [payloadOf]
    have hlen : (payloadOf (done ++ cmd :: rest)).length =
        (payloadOf done).length + (4 + (cmd.length + (payloadOf rest).length)) := by
      rw [hpay]
      simp
    cases hc : b.shouldClose with
    | true => simp [Batch.turn, hc]
    | false =>
      have hlt : b.offset < (payloadOf (done ++ cmd :: rest)).length ∧ b.shouldClose = false :=
        ⟨by omega, hc⟩
      have hstart : (b.offset + 4) % 2 ^ 32 = (payloadOf done).length + 4 := by
        rw [Nat.mod_eq_of_lt (by omega), hoff]
      have hsize4 : ntohl (((payloadOf (done ++ cmd :: rest)).drop b.offset).take 4) =
          cmd.length := by
        rw [hpay, hoff, List.drop_left' rfl, List.take_left' (by simp), ntohl_htonl (by omega)]
      have hnext : ((payloadOf done).length + 4 + cmd.length) % 2 ^ 32 =
          (payloadOf (done ++ [cmd])).length := by
        rw [Nat.mod_eq_of_lt (by omega)]
        simp [payloadOf]
        omega
      have hcmd : ((payloadOf (done ++ cmd :: rest)).drop ((payloadOf done).length + 4)).take
          cmd.length = cmd := by
        rw [hpay, ← List.drop_drop, List.drop_left' rfl, List.drop_left' (by simp),
          List.take_left' rfl]
      have hle : (payloadOf (done ++ [cmd])).length ≤ (payloadOf (done ++ cmd :: rest)).length := by
        rw [← hnext, Nat.mod_eq_of_lt (by omega)]
        omega
      simp only [Batch.turn, if_pos hlt, hstart, hsize4, hnext, hcmd]
      rw [if_neg (by omega), if_neg (by omega)]
      simp

namespace Served

variable {cmds : List Bytes} {s s' : Session} {hs : List (Handling n)} {b : Batch}

lemma commands (hsize : (payloadOf cmds).length ≤ MAX_PAYLOAD_SIZE)
    (h : Served pf sha256 (payloadOf cmds) s hs s' b) :
    ∃ rest, cmds = hs.map Handling.cmd ++ rest ∧
      b.offset = (payloadOf (hs.map Handling.cmd)).length := by
  induction h with
  | start => exact ⟨cmds, rfl, rfl⟩
  | @turn hs b offset h _ hturn ih =>
    obtain ⟨rest, rfl, hoff⟩ := ih
    rw [turn_payloadOf _ _ hsize hoff] at hturn
    cases rest with
    | nil => cases hturn
    | cons cmd rest =>
      simp only at hturn
      split_ifs at hturn
      obtain ⟨rfl, rfl⟩ := Turn.command.inj hturn
      exact ⟨rest, by simp, by simp [Batch.next]⟩

/-- Cutting the reply gives one JSON document for each command that was handled, in their order. -/
structure OneEach (pf : Platform) (sha256 : Bytes → Bytes) (cmds : List Bytes)
    (hs : List (Handling n)) (b : Batch) : Prop where
  order : hs.map Handling.cmd <+: cmds
  complete : b.shouldClose = false → hs.map Handling.cmd = cmds
  pieces : cut SEPARATOR (b.reply pf (payloadOf cmds)).dropLast =
    hs.map (Handling.document pf sha256)
  json : ∀ d ∈ cut SEPARATOR (b.reply pf (payloadOf cmds)).dropLast, Json.Text d

lemma oneEach_iff (hj : pf.Json) (hsize : (payloadOf cmds).length ≤ MAX_PAYLOAD_SIZE)
    (ha : s.authenticated = true)
    (h : Served pf sha256 (payloadOf cmds) s hs s' b) (hg : ∀ k ∈ hs, k.host.db.Good)
    (hdone : b.turn (payloadOf cmds) = .done) :
    OneEach pf sha256 cmds hs b ↔ ∀ k ∈ hs, ¬ k.CopiesSeparator pf := by
  have hreply : (b.reply pf (payloadOf cmds)).dropLast =
      SEPARATOR.intercalate (hs.map (Handling.document pf sha256)) := by
    rw [Batch.reply, hdone, if_neg (by simp), List.dropLast_concat, h.finalResult_eq]
  have hclosed : ∀ d ∈ hs.map (Handling.document pf sha256), Closed SEPARATOR d := by
    intro d hd
    obtain ⟨k, -, rfl⟩ := List.mem_map.mp hd
    exact responseToJson_closed pf _
  have hcut := cut_intercalate_eq_iff SEPARATOR (by decide) hclosed
  have hcopies : (∀ d ∈ hs.map (Handling.document pf sha256), ¬ SEPARATOR <:+: d) ↔
      ∀ k ∈ hs, ¬ k.CopiesSeparator pf := by
    rw [List.forall_mem_map]
    refine forall₂_congr fun k hk => not_congr ?_
    have hauth : k.session.authenticated = true := by rw [(h.session_eq ha).2 k hk, ha]
    exact (separator_infix_iff hj).trans (Handling.copies_iff hj (hg k hk) hauth)
  obtain ⟨rest, hrest, hoff⟩ := h.commands hsize
  constructor
  · intro hone
    refine hcopies.mp (hcut.mp ?_)
    rw [← hreply]
    exact hone.pieces
  · intro hno
    have hpieces := hcut.mpr (hcopies.mpr hno)
    rw [← hreply] at hpieces
    refine ⟨⟨rest, hrest.symm⟩, fun hopen => ?_, hpieces, ?_⟩
    · rw [hrest, turn_payloadOf _ _ (by rwa [← hrest]) hoff] at hdone
      cases rest with
      | nil => simp [hrest]
      | cons cmd rest => simp [hopen] at hdone
    · rw [hpieces]
      intro d hd
      obtain ⟨k, -, rfl⟩ := List.mem_map.mp hd
      exact responseToJson_text hj _

/-- The reply to a batch comes apart into one document for each command exactly when no `get` of the
batch copies a value with the separator in it. -/
theorem reply_documents_iff (hj : pf.Json) (hsize : (payloadOf cmds).length ≤ MAX_PAYLOAD_SIZE)
    (ha : s.authenticated = true) (h : Served pf sha256 (payloadOf cmds) s hs s' b)
    (hg : ∀ k ∈ hs, k.host.db.Good) (hdone : b.turn (payloadOf cmds) = .done) :
    OneEach pf sha256 cmds hs b ↔ ∀ k ∈ hs, ¬ k.CopiesSeparator pf :=
  oneEach_iff hj hsize ha h hg hdone

end Served

section Array

open scoped Classical

lemma escapeAscii_chars (str : Bytes) : Json.Chars (escapeAscii str) := by
  have hhex : ∀ b : Byte, Json.Hex (hexOctet (b.val / 16)) ∧ Json.Hex (hexOctet (b.val % 16)) := by
    simp only [Json.Hex, Json.Digit]
    decide +kernel
  induction str with
  | nil => exact .nil
  | cons b str ih =>
    change Json.Chars ((if _ then _ else _) ++ escapeAscii str)
    split_ifs with hb
    · obtain ⟨hlo, hhi, hq, hs⟩ := hb
      have hval : (Char.ofNat b.val).toNat = b.val := by
        have hvalid : b.val.isValidChar := Or.inl (by omega)
        rw [Char.ofNat, dif_pos hvalid]
        rfl
      have hoctet : Json.octet (Char.ofNat b.val) = b := by
        rw [Json.octet, hval]
        exact Fin.ext (Nat.mod_eq_of_lt b.isLt)
      have hne : ∀ c : Char, Json.octet c ≠ b → Char.ofNat b.val ≠ c := by
        rintro c hc rfl
        exact hc hoctet
      have hc := Json.Chars.unescaped (Char.ofNat b.val) (by omega) (hne '"' (Ne.symm hq))
        (hne '\\' (Ne.symm hs)) ih
      rwa [Json.utf8_ascii (by omega), hoctet] at hc
    · exact .unicode (show Json.Hex 48 by unfold Json.Hex Json.Digit; decide)
        (show Json.Hex 48 by unfold Json.Hex Json.Digit; decide) (hhex b).1 (hhex b).2 ih

noncomputable def grammar : Platform :=
  { Op.oneHash with escape := escapeAscii, accept := fun text => decide (Json.Text text) }

lemma grammar_json : grammar.Json := ⟨fun _ h => of_decide_eq_true h, escapeAscii_chars⟩

def emptyArray : Bytes := [91, 13, 10, 13, 10, 93]

def aliceStart : ZestDB 1 :=
  ZestDB.new ⟨true, some {}, (∅ : Users).insert (ascii "alice") ⟨[], .Write⟩, true⟩ {} {} {}

lemma aliceStart_good : aliceStart.Good := by
  refine ZestDB.new_good (fun s hs => ?_) ZestDB.default_accepted {} {}
  obtain rfl : {} = s := by simpa using hs
  exact ZestDB.default_accepted.typed

def withArray : ZestDB 1 :=
  ((ZestDB.Event.exec { command := ascii "set a " ++ emptyArray }).run Op.oneHash
    (ZestDB.new ⟨true, some {}, (∅ : Users).insert (ascii "alice") ⟨[], .Write⟩,
      true⟩ {} {} {})).final

lemma withArray_good : withArray.Good :=
  ZestDB.History.good aliceStart_good
    (.tail (.exec { command := ascii "set a " ++ emptyArray }) (.refl aliceStart) trivial
      (fun _ => trivial) (by decide +kernel))

def handlingOf (cmd : Bytes) : Handling 1 := ⟨{}, ⟨true, ascii "alice"⟩, ⟨withArray, ∅⟩, cmd⟩

noncomputable def afterGet (sha256 : Bytes → Bytes) : Batch :=
  ({} : Batch).next grammar 9 ((handlingOf (ascii "get a")).handled grammar sha256)

lemma afterGet_served (sha256 : Bytes → Bytes) :
    Served grammar sha256 (payloadOf [ascii "get a"]) ⟨true, ascii "alice"⟩
    [handlingOf (ascii "get a")]
      ((handlingOf (ascii "get a")).handled grammar sha256).session (afterGet sha256) :=
  .turn (handlingOf (ascii "get a")) .start (by decide)

/-- The stored array is copied into the document, and the document is cut in two. -/
theorem array_cut_in_two :
    grammar.Json ∧ (∀ text, Json.Text text → grammar.accept text = true) ∧ withArray.Good ∧
      (payloadOf [ascii "get a"]).length ≤ MAX_PAYLOAD_SIZE ∧
      Served grammar id (payloadOf [ascii "get a"]) ⟨true, ascii "alice"⟩
      [handlingOf (ascii "get a")]
        ((handlingOf (ascii "get a")).handled grammar id).session (afterGet id) ∧
      (afterGet id).turn (payloadOf [ascii "get a"]) = .done ∧
      ¬ Served.OneEach grammar id [ascii "get a"] [handlingOf (ascii "get a")] (afterGet id) := by
  have hsize : (payloadOf [ascii "get a"]).length ≤ MAX_PAYLOAD_SIZE := by decide
  have hdone : (afterGet id).turn (payloadOf [ascii "get a"]) = .done :=
    turn_payloadOf [ascii "get a"] [] hsize rfl
  have hgood : ∀ k ∈ [handlingOf (ascii "get a")], k.host.db.Good := by
    intro k hk
    rw [List.mem_singleton.mp hk]
    exact withArray_good
  refine ⟨grammar_json, fun text h => decide_eq_true h, withArray_good, hsize, afterGet_served id,
    hdone, ?_⟩
  rw [Served.oneEach_iff grammar_json hsize rfl (afterGet_served id) hgood hdone]
  intro hno
  refine hno _ (List.mem_singleton_self _) ⟨.Write, ascii "a", ascii "a", emptyArray, rfl, rfl, rfl,
    ?_, ?_, ?_⟩
  · decide +kernel
  · have htext : Json.Text emptyArray :=
      (Json.Value.emptyArray (w := [13, 10, 13, 10]) (by simp [Json.Ws]; decide)).text
    rw [verbatim, Bool.and_eq_true]
    exact ⟨by decide, decide_eq_true htext⟩
  · exact ⟨[91], [93], rfl⟩

def twoParts : Bytes := ascii "x\r\n\r\ny"

def withParts : ZestDB 1 :=
  ((ZestDB.Event.exec { command := ascii "set b " ++ twoParts }).run Op.oneHash withArray).final

lemma withParts_good : withParts.Good :=
  ZestDB.History.good withArray_good
    (.tail _ (.refl _) trivial (fun _ => trivial) (by decide +kernel))

def handlingAfter (cmd : Bytes) : Handling 1 := ⟨{}, ⟨true, ascii "alice"⟩, ⟨withParts, ∅⟩, cmd⟩

/-- A write, a read of what was written, a read of a key that is missing, and a command that is
none. -/
def mixedBatch : List Bytes :=
  [ascii "set b " ++ twoParts, ascii "get b", ascii "get c", ascii "hello"]

def mixedHandlings : List (Handling 1) :=
  [handlingOf (ascii "set b " ++ twoParts), handlingAfter (ascii "get b"),
    handlingAfter (ascii "get c"), handlingAfter (ascii "hello")]

noncomputable def afterMixed : Batch :=
  ((((({} : Batch).next grammar 16
    ((handlingOf (ascii "set b " ++ twoParts)).handled grammar id)).next grammar 25
    ((handlingAfter (ascii "get b")).handled grammar id)).next grammar 34
      ((handlingAfter (ascii "get c")).handled grammar id))).next grammar 43
        ((handlingAfter (ascii "hello")).handled grammar id)

theorem mixed_one_each : Served.OneEach grammar id mixedBatch mixedHandlings afterMixed := by
  have hsize : (payloadOf mixedBatch).length ≤ MAX_PAYLOAD_SIZE := by decide
  have hserved : Served grammar id (payloadOf mixedBatch) ⟨true, ascii "alice"⟩ mixedHandlings
      ((handlingAfter (ascii "hello")).handled grammar id).session afterMixed := by
    refine .turn (handlingAfter (ascii "hello")) (.turn (handlingAfter (ascii "get c"))
      (.turn (handlingAfter (ascii "get b"))
        (.turn (handlingOf (ascii "set b " ++ twoParts)) .start ?_) ?_) ?_) ?_
    · exact turn_payloadOf [] mixedBatch hsize rfl
    · exact turn_payloadOf (mixedBatch.take 1) (mixedBatch.drop 1) hsize rfl
    · exact turn_payloadOf (mixedBatch.take 2) (mixedBatch.drop 2) hsize rfl
    · exact turn_payloadOf (mixedBatch.take 3) (mixedBatch.drop 3) hsize rfl
  have hdone : afterMixed.turn (payloadOf mixedBatch) = .done :=
    turn_payloadOf mixedBatch [] hsize rfl
  have hgood : ∀ k ∈ mixedHandlings, k.host.db.Good := by
    simp only [mixedHandlings, List.forall_mem_cons, List.not_mem_nil, false_imp_iff, implies_true,
      and_true]
    exact ⟨withArray_good, withParts_good, withParts_good, withParts_good⟩
  have halice : ∀ k : Handling 1, k.session.username = ascii "alice" →
      k.host.db.users = withArray.users →
      k.host.db.users.roleOf k.session.username = some .Write := by
    intro k hname husers
    rw [hname, husers]
    rfl
  refine (Served.reply_documents_iff grammar_json hsize rfl hserved hgood hdone).mpr ?_
  simp only [mixedHandlings, List.forall_mem_cons, List.not_mem_nil, false_imp_iff, implies_true,
    and_true]
  refine ⟨?_, ?_, ?_, ?_⟩
  · refine Handling.not_copiesSeparator (halice _ rfl rfl) fun word key h => ?_
    have hasked : ZestDB.asked grammar ((handlingOf (ascii "set b " ++ twoParts)).call .Write) =
        some (ascii "b", .write (.set (ascii "b") twoParts)) := rfl
    rw [hasked] at h
    cases h
  · rw [Handling.copiesSeparator_get .Write (ascii "b") (ascii "b") rfl rfl]
    rintro ⟨-, value, hval, hverb, -⟩
    have hstored : (handlingAfter (ascii "get b")).host.db.toMap grammar (ascii "b") =
        some twoParts := by decide +kernel
    obtain rfl := Option.some.inj (hstored.symm.trans hval)
    cases hverb
  · rw [Handling.copiesSeparator_get .Write (ascii "c") (ascii "c") rfl rfl]
    have hnone : (handlingAfter (ascii "get c")).host.db.toMap grammar (ascii "c") = none := by
      decide +kernel
    simp [hnone]
  · refine Handling.not_copiesSeparator (halice _ rfl rfl) fun word key h => ?_
    have hasked : ZestDB.asked grammar ((handlingAfter (ascii "hello")).call .Write) = none := rfl
    rw [hasked] at h
    cases h

end Array

end Zest
