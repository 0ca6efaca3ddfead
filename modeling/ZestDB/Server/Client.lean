import ZestDB.Foundations.Terminated
import ZestDB.Server.Framing

/-! `zest_client.py`: the client sends a batch and reads until what it has ends as a reply does. -/

namespace Zest

open Foundations

def ENDING : Bytes := [125, 10]

/-- `send` of the client for one batch after the other, with the chunks in which each reply comes;
what one call leaves is read by the next one. -/
def ZestClient.sends (arrivals : List (List Bytes)) : Option (List Bytes) :=
  readEach ENDING arrivals []

section Document

variable {pf : Platform} {r : ResultType}

lemma Plain.not_ending {response : Bytes} (h : Plain response) :
    ¬ (verbatim pf response = true ∧ ENDING <:+: response) := by
  rintro ⟨hv, hin⟩
  rcases h with h | h
  · exact h.not_mem (x := 10) (by decide) (hin.subset (by decide))
  · simp [verbatim, h] at hv

lemma responseToJson_getLast (pf : Platform) (r : ResultType) :
    (responseToJson pf r).getLast? = some 125 := by
  obtain ⟨start, -, heq⟩ := responseToJson_eq pf r
  have hclose : ascii "\x7d" = [125] := by decide
  rw [heq, hclose, ← List.append_assoc, List.getLast?_concat]

lemma ending_infix_iff (hj : pf.Json) :
    ENDING <:+: responseToJson pf r ↔ verbatim pf r.response = true ∧ ENDING <:+: r.response := by
  obtain ⟨start, hstart, heq⟩ := responseToJson_eq pf r
  have hclose : ascii "\x7d" = [125] := by decide
  have printable : ∀ {text : Bytes}, Printable text → ¬ ENDING <:+: text := fun h hin =>
    h.not_mem (x := 10) (by decide) (hin.subset (by decide))
  have hbody : ∀ rest,
      ((if verbatim pf r.response then r.response else dumpString pf r.response) ++ rest).head? ≠
        some 10 := by
    intro rest
    split_ifs with hv
    · simp only [verbatim, looksLikeJson, Bool.and_eq_true, Bool.or_eq_true,
        decide_eq_true_eq] at hv
      rw [List.head?_append]
      rcases hv.1 with h | h <;> simp [h]
    · simp [dumpString, ascii]
  have hopen : ¬ ENDING <:+: start := printable hstart
  have hsingle : ¬ ENDING <:+: [125] := by decide
  rw [heq, hclose]
  simp only [ENDING, pair_infix_append] at hopen hsingle ⊢
  simp only [hopen, hsingle, hbody, false_or, or_false, and_false, List.head?_cons]
  have hten : ¬ (some (125 : Byte) = some 10) := by decide
  simp only [hten, and_false, or_false]
  split_ifs with hv
  · simp [hv]
  · have hno := printable (Printable.dumpString hj r.response)
    simp only [ENDING] at hno
    simp [hv, hno]

end Document

lemma ending_intercalate {docs : List Bytes} (h : ∀ d ∈ docs, d.getLast? = some 125) :
    ENDING <:+: SEPARATOR.intercalate docs ↔ ∃ d ∈ docs, ENDING <:+: d := by
  induction docs with
  | nil => simp [List.intercalate, ENDING]
  | cons d docs ih =>
    have hrest := ih fun e he => h e (List.mem_cons_of_mem _ he)
    cases docs with
    | nil => simp [List.intercalate]
    | cons d' docs =>
      have hjoin : SEPARATOR.intercalate (d :: d' :: docs) =
          d ++ (SEPARATOR ++ SEPARATOR.intercalate (d' :: docs)) := by
        simp [List.intercalate]
      have hsep : ¬ ENDING <:+: SEPARATOR := by decide
      have hlast : SEPARATOR.getLast? ≠ some 125 := by decide
      have hhead : (SEPARATOR ++ SEPARATOR.intercalate (d' :: docs)).head? ≠ some 10 := by
        simp [SEPARATOR]
      rw [hjoin, List.exists_mem_cons_iff, ← hrest]
      simp only [ENDING, pair_infix_append] at hsep ⊢
      simp only [hsep, hlast, hhead, false_or, false_and, and_false, or_false]

lemma intercalate_getLast {docs : List Bytes} (h : ∀ d ∈ docs, d.getLast? = some 125)
    (hne : docs ≠ []) :
    (SEPARATOR.intercalate docs).getLast? = some 125 := by
  induction docs with
  | nil => exact absurd rfl hne
  | cons d docs ih =>
    cases docs with
    | nil => simpa [List.intercalate] using h d List.mem_cons_self
    | cons d' docs =>
      have hjoin : SEPARATOR.intercalate (d :: d' :: docs) =
          d ++ (SEPARATOR ++ SEPARATOR.intercalate (d' :: docs)) := by
        simp [List.intercalate]
      have hrest := ih (fun e he => h e (List.mem_cons_of_mem _ he)) (List.cons_ne_nil _ _)
      rw [hjoin, List.getLast?_append, List.getLast?_append, hrest]
      rfl

variable {n : ℕ} [NeZero n] {pf : Platform} {sha256 : Bytes → Bytes}

namespace Handling

/-- The command is a `get` that answers with a value which is accepted as JSON and has the mark in
it. -/
def CopiesEnding (pf : Platform) (h : Handling n) : Prop :=
  h.session.authenticated = true ∧
  ∃ role word key value, h.host.db.users.roleOf h.session.username = some role ∧
    ZestDB.asked pf (h.call role) = some (word, .get key) ∧
    ZestDB.validateKey h.host.db.settings key = true ∧
    h.host.db.toMap pf key = some value ∧ verbatim pf value = true ∧ ENDING <:+: value

variable {h : Handling n} {role : Role} {word : Bytes} {key : Key}

variable (role word key) in
lemma copiesEnding_get (ha : h.session.authenticated = true)
    (hrole : h.host.db.users.roleOf h.session.username = some role)
    (hask : ZestDB.asked pf (h.call role) = some (word, .get key)) :
    h.CopiesEnding pf ↔ ZestDB.validateKey h.host.db.settings key = true ∧
      ∃ value, h.host.db.toMap pf key = some value ∧ verbatim pf value = true ∧
        ENDING <:+: value := by
  constructor
  · rintro ⟨-, role', word', key', value, hr, hask', hkey, hval, hverb, hin⟩
    obtain rfl := Option.some.inj (hrole.symm.trans hr)
    obtain ⟨-, hreq⟩ := Prod.mk.inj (Option.some.inj (hask.symm.trans hask'))
    obtain rfl := Request.get.inj hreq
    exact ⟨hkey, value, hval, hverb, hin⟩
  · rintro ⟨hkey, value, hval, hverb, hin⟩
    exact ⟨ha, role, word, key, value, hrole, hask, hkey, hval, hverb, hin⟩

lemma not_copiesEnding (hrole : h.host.db.users.roleOf h.session.username = some role)
    (hno : ∀ word key, ZestDB.asked pf (h.call role) ≠ some (word, .get key)) :
    ¬ h.CopiesEnding pf := by
  rintro ⟨-, role', word, key, value, hr, hask, -⟩
  obtain rfl := Option.some.inj (hrole.symm.trans hr)
  exact hno word key hask

lemma handshake_plain (ha : h.session.authenticated = false) :
    Plain (h.handled pf sha256).result.response := by
  have hfailed : Plain Messages.AUTH_FAILED := Or.inr (by decide)
  have hpassed : Plain Messages.AUTH_SUCCESS := Or.inr (by decide)
  simp only [handled, Session.handleCommand, ha, Bool.not_false, if_true, Session.handshake]
  split
  · exact hfailed
  · split_ifs
    · exact hfailed
    · split
      · exact hfailed
      · exact hpassed

lemma get_ending_iff (hg : h.host.db.Good) (ha : h.session.authenticated = true)
    (hrole : h.host.db.users.roleOf h.session.username = some role)
    (hask : ZestDB.asked pf (h.call role) = some (word, .get key)) :
    (verbatim pf (ZestDB.get pf key h.host.db).val.response = true ∧
      ENDING <:+: (ZestDB.get pf key h.host.db).val.response) ↔ h.CopiesEnding pf := by
  rw [copiesEnding_get _ _ _ ha hrole hask, get_val hg]
  split_ifs with hkey
  · cases hval : h.host.db.toMap pf key with
    | none =>
      simp only [Shard.getResult, hval]
      exact iff_of_false (show Plain
        Messages.KEY_NOT_FOUND from Or.inr (by decide)).not_ending (by simp)
    | some value => simp [Shard.getResult, hval, hkey]
  · exact iff_of_false (show Plain
      Messages.INVALID_KEY from Or.inr (by decide)).not_ending (by simp [hkey])

lemma document_ending_iff (hj : pf.Json) (hg : h.host.db.Good) :
    ENDING <:+: h.document pf sha256 ↔ h.CopiesEnding pf := by
  rw [document, ending_infix_iff hj]
  cases ha : h.session.authenticated with
  | false => exact iff_of_false (handshake_plain
      ha).not_ending fun hc => absurd (ha.symm.trans hc.1) (by simp)
  | true =>
    cases hrole : h.host.db.users.roleOf h.session.username with
    | none =>
      rw [handled_revoked ha hrole]
      refine iff_of_false (show Plain Messages.SESSION_REVOKED from Or.inr
        (by decide)).not_ending ?_
      rintro ⟨-, role, word, key, value, hr, -⟩
      exact absurd (hrole.symm.trans hr) (by simp)
    | some role =>
      rw [handled_result ha hrole]
      cases hask : ZestDB.asked pf (h.call role) with
      | none =>
        obtain ⟨message, hval, hplain⟩ := execCmd_none_plain h.host.db hask
        rw [hval]
        exact iff_of_false hplain.not_ending (not_copiesEnding hrole (by simp [hask]))
      | some wr =>
        obtain ⟨word, req⟩ := wr
        rw [ZestDB.execCmd_some hask]
        by_cases hreq : ∃ key, req = .get key
        · obtain ⟨key, rfl⟩ := hreq
          exact get_ending_iff hg ha hrole hask
        · have hno : ¬ h.CopiesEnding pf := by
            refine not_copiesEnding hrole fun word' key' hk => hreq ⟨key', ?_⟩
            exact (Prod.mk.inj (Option.some.inj (hask.symm.trans hk))).2
          cases hval : (ZestDB.serve pf (h.call role) word req h.host.db).val with
          | none => exact iff_of_false (show Plain Messages.INTERNAL_ERROR from Or.inr
              (by decide)).not_ending hno
          | some r =>
            exact iff_of_false (ZestDB.serve_plain hj (fun k hk => hreq ⟨k, hk⟩) hval).not_ending
              hno

end Handling

lemma Served.unhandled {payload : Bytes} {s s' : Session} {hs : List (Handling n)} {b : Batch}
    (h : Served pf sha256 payload s hs s' b) (hnil : hs = []) : b = {} := by
  cases h with
  | start => rfl
  | turn => simp at hnil

structure Round (n : ℕ) where
  commands : List Bytes
  session : Session
  handlings : List (Handling n)
  session' : Session
  batch : Batch

namespace Round

def reply (pf : Platform) (r : Round n) : Bytes := r.batch.reply pf (payloadOf r.commands)

structure Answered (pf : Platform) (sha256 : Bytes → Bytes) (r : Round n) : Prop where
  size : (payloadOf r.commands).length ≤ MAX_PAYLOAD_SIZE
  some : r.commands ≠ []
  served : Served pf sha256 (payloadOf r.commands) r.session r.handlings r.session' r.batch
  ended : ∀ cmd next, r.batch.turn (payloadOf r.commands) ≠ .command cmd next

variable {r : Round n}

lemma Answered.reply_eq (h : r.Answered pf sha256) : r.handlings ≠ [] ∧
    r.reply pf = SEPARATOR.intercalate (r.handlings.map (Handling.document pf sha256)) ++ [10] := by
  obtain ⟨rest, hrest, hoff⟩ := h.served.commands h.size
  have hsize : (payloadOf (r.handlings.map Handling.cmd ++ rest)).length ≤ MAX_PAYLOAD_SIZE :=
    hrest ▸ h.size
  have hturn := turn_payloadOf _ rest hsize hoff
  have hclosed : ∀ {cmd : Bytes} {tail : List Bytes}, rest = cmd :: tail →
      r.batch.shouldClose = true := by
    rintro cmd tail rfl
    by_contra hopen
    simp only [hopen, if_false] at hturn
    exact h.ended _ _ (hrest ▸ hturn)
  have hdone : r.batch.turn (payloadOf r.commands) = .done := by
    rw [hrest]
    cases rest with
    | nil => exact hturn
    | cons cmd tail => simpa [hclosed rfl] using hturn
  refine ⟨fun hnil => ?_, ?_⟩
  · have hfresh := h.served.unhandled hnil
    cases rest with
    | nil => exact h.some (by simpa [hnil] using hrest)
    | cons cmd tail =>
      have hclose := hclosed rfl
      simp [hfresh] at hclose
  · rw [reply, Batch.reply, hdone, if_neg (by simp), h.served.finalResult_eq]

lemma Answered.terminated_iff (hj : pf.Json) (h : r.Answered pf sha256)
    (hg : ∀ k ∈ r.handlings, k.host.db.Good) :
    Terminated ENDING (r.reply pf) ↔ ∀ k ∈ r.handlings, ¬ k.CopiesEnding pf := by
  obtain ⟨hne, heq⟩ := h.reply_eq
  have hlast : ∀ d ∈ r.handlings.map (Handling.document pf sha256), d.getLast? =
      Option.some 125 := by
    intro d hd
    obtain ⟨k, -, rfl⟩ := List.mem_map.mp hd
    exact responseToJson_getLast pf _
  rw [heq, ENDING, terminated_pair (intercalate_getLast hlast (by simpa using hne)), ← ENDING,
    ending_intercalate hlast]
  simp only [List.mem_map, exists_exists_and_eq_and, not_exists, not_and]
  exact forall₂_congr fun k hk => not_congr (Handling.document_ending_iff hj (hg k hk))

end Round

/-- However the network cuts the replies, each call of `send` returns the reply to its own batch,
exactly if no `get` copies a JSON value with the mark in it. -/
theorem client_in_step_iff (hj : pf.Json) {rounds : List (Round n)}
    (h : ∀ r ∈ rounds, r.Answered pf sha256)
    (hg : ∀ r ∈ rounds, ∀ k ∈ r.handlings, k.host.db.Good) :
    (∀ arrivals, Cuts (rounds.map (Round.reply pf)) arrivals →
      ZestClient.sends arrivals = some (rounds.map (Round.reply pf))) ↔
      ∀ r ∈ rounds, ∀ k ∈ r.handlings, ¬ k.CopiesEnding pf := by
  refine (readEach_iff (by decide)).trans ?_
  rw [List.forall_mem_map]
  exact forall₂_congr fun r hr => (h r hr).terminated_iff hj (hg r hr)

section OutOfStep

def objectArray : Bytes := [91, 123, 125, 10, 93]

def withObject : ZestDB 1 :=
  ((ZestDB.Event.exec { command := ascii "set a " ++ objectArray }).run Op.oneHash
    (ZestDB.new ⟨true, some {}, (∅ : Users).insert (ascii "alice") ⟨[], .Write⟩,
      true⟩ {} {} {})).final

lemma withObject_good : withObject.Good :=
  ZestDB.History.good aliceStart_good
    (.tail (.exec { command := ascii "set a " ++ objectArray }) (.refl aliceStart) trivial
      (fun _ => trivial) (by decide +kernel))

def getObject : Handling 1 := ⟨{}, ⟨true, ascii "alice"⟩, ⟨withObject, ∅⟩, ascii "get a"⟩

noncomputable def objectRound : Round 1 :=
  ⟨[ascii "get a"], ⟨true, ascii "alice"⟩, [getObject], (getObject.handled grammar id).session,
    ({} : Batch).next grammar 9 (getObject.handled grammar id)⟩

lemma objectRound_answered : objectRound.Answered grammar id where
  size := by decide
  some := by simp [objectRound]
  served := .turn getObject .start (by decide)
  ended := by
    have hdone : objectRound.batch.turn (payloadOf [ascii "get a"]) = .done :=
      turn_payloadOf [ascii "get a"] [] (by decide) rfl
    intro cmd next hturn
    cases hdone.symm.trans hturn

/-- The client takes the beginning of the reply for the whole of it. -/
theorem objectArray_out_of_step : objectRound.Answered grammar id ∧
    ∃ arrivals, Cuts [objectRound.reply grammar] arrivals ∧
      ZestClient.sends arrivals ≠ some [objectRound.reply grammar] := by
  refine ⟨objectRound_answered, ?_⟩
  have hanswered : ∀ r ∈ [objectRound], r.Answered grammar id :=
    List.forall_mem_singleton.mpr objectRound_answered
  have hgood : ∀ r ∈ [objectRound], ∀ k ∈ r.handlings, k.host.db.Good :=
    List.forall_mem_singleton.mpr (List.forall_mem_singleton.mpr withObject_good)
  have hcopies : getObject.CopiesEnding grammar := by
    refine ⟨rfl, .Write, ascii "a", ascii "a", objectArray, rfl, rfl, rfl, by decide +kernel, ?_,
      ?_⟩
    · have hws : Json.Ws [10] := by simp [Json.Ws]; decide
      have htext : Json.Text objectArray :=
        (Json.Value.array (.one .nil (.emptyObject .nil) hws)).text
      rw [verbatim, Bool.and_eq_true]
      exact ⟨by decide, by simpa [grammar] using htext⟩
    · exact ⟨[91, 123], [93], rfl⟩
  by_contra hall
  push Not at hall
  have hnone := (client_in_step_iff grammar_json hanswered hgood).mp hall
  exact hnone objectRound (List.mem_singleton_self _) getObject (List.mem_singleton_self _) hcopies

end OutOfStep

end Zest
