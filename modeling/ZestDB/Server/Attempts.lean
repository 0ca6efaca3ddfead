import ZestDB.Server.Lockout

/-! Authentications one at a time, and the rule on their results that the table of failures stands
for. -/

namespace Zest

open Foundations

structure AuthRecord where
  user : Bytes
  time : ℕ
  success : Bool
deriving DecidableEq, Repr

/-- The results end in five failures or more, each less than the lockout after the one before and
the last less than the lockout before `now`. -/
def EndsInFailures (records : List AuthRecord) (now : ℕ) : Prop :=
  ∃ older recent, records = older ++ recent ∧ MAX_AUTH_FAILURES ≤ recent.length ∧
    (∀ r ∈ recent, r.success = false) ∧
    (recent.map AuthRecord.time ++ [now]).IsChain fun t later => later < t + AUTH_LOCKOUT

def failureTimes (records : List AuthRecord) : List ℕ :=
  (records.reverse.takeWhile fun r => !r.success).map AuthRecord.time

def recordsOf (log : List AuthRecord) (user : Bytes) : List AuthRecord :=
  log.filter fun r => r.user = user

section Rule

variable {records log : List AuthRecord} {r : AuthRecord} {user : Bytes} {now k : ℕ}

lemma failureTimes_concat (records : List AuthRecord) (r : AuthRecord) :
    failureTimes (records ++ [r]) = if r.success then [] else r.time :: failureTimes records := by
  cases hr : r.success <;> simp [failureTimes, hr]

lemma recordsOf_concat (log : List AuthRecord) (r : AuthRecord) (user : Bytes) :
    recordsOf (log ++ [r]) user = if r.user = user then
      recordsOf log user ++ [r] else recordsOf log user := by
  by_cases hu : r.user = user <;> simp [recordsOf, hu]

lemma failureTimes_recordsOf_concat (log : List AuthRecord) (r : AuthRecord) :
    (fun user => failureTimes (recordsOf (log ++ [r]) user)) =
      Function.update (fun user => failureTimes (recordsOf log user)) r.user
        (if r.success then [] else r.time :: failureTimes (recordsOf log r.user)) := by
  funext user
  rw [Function.update_apply, recordsOf_concat]
  by_cases hu : user = r.user
  · rw [if_pos hu, if_pos hu.symm, failureTimes_concat, hu]
  · rw [if_neg hu, if_neg (Ne.symm hu)]

lemma le_streak_iff (records : List AuthRecord) (k now : ℕ) :
    k ≤ streak now (failureTimes records) ↔
      ∃ older recent, records = older ++ recent ∧ k ≤ recent.length ∧
        (∀ r ∈ recent, r.success = false) ∧
        (recent.map AuthRecord.time ++ [now]).IsChain fun t later => later < t + AUTH_LOCKOUT := by
  induction records using List.reverseRecOn generalizing k now with
  | nil => simp [failureTimes, streak]
  | append_singleton records r ih =>
    cases k with
    | zero => exact ⟨fun _ => ⟨records ++ [r], [], by simp⟩, fun _ => Nat.zero_le _⟩
    | succ k =>
      rw [failureTimes_concat]
      constructor
      · intro h
        cases hr : r.success with
        | true => simp [hr, streak] at h
        | false =>
          by_cases hn : now < r.time + AUTH_LOCKOUT
          · have hk : k ≤ streak r.time (failureTimes records) := by simpa [hr, streak, hn] using h
            obtain ⟨older, recent, hsplit, hlen, hfail, hchain⟩ := (ih k r.time).mp hk
            refine ⟨older, recent ++ [r], by simp [hsplit], by simpa using hlen, ?_, ?_⟩
            · simpa [or_imp, forall_and, hr] using hfail
            · rw [List.map_append, List.append_assoc]
              exact List.isChain_append_cons_cons.mpr ⟨hchain, hn, .singleton _⟩
          · simp [hr, streak, hn] at h
      · rintro ⟨older, recent, hsplit, hlen, hfail, hchain⟩
        obtain ⟨recent, r', rfl⟩ : ∃ front last, recent = front ++ [last] := by
          rcases List.eq_nil_or_concat recent with rfl | ⟨front, last, rfl⟩
          · simp at hlen
          · exact ⟨front, last, List.concat_eq_append⟩
        rw [← List.append_assoc] at hsplit
        obtain ⟨hrest, hlast⟩ := List.append_inj' hsplit rfl
        obtain rfl : r = r' := by simpa using hlast
        rw [List.map_append, List.append_assoc] at hchain
        obtain ⟨hfront, hn, -⟩ := List.isChain_append_cons_cons.mp hchain
        have hk : k ≤ streak r.time (failureTimes records) :=
          (ih k r.time).mpr ⟨older, recent, hrest, by simpa using hlen,
            fun x hx => hfail x (by simp [hx]), hfront⟩
        simpa [hfail r (by simp), streak, hn] using hk

theorem lockedOut_iff (records : List AuthRecord) (now : ℕ) :
    LockedOut (failureTimes records) now ↔ EndsInFailures records now :=
  le_streak_iff records MAX_AUTH_FAILURES now

end Rule

/-- One handshake: the name and the token, the users the token is compared with, when `authAllowed`
is asked, and how much later the result is recorded. -/
structure Attempt where
  user : Bytes
  token : Bytes
  users : Users
  now : ℕ
  delay : ℕ

def Attempt.succeeds (sha256 : Bytes → Bytes) (a : Attempt) : Bool :=
  (a.users.authenticate sha256 a.user a.token).isSome

structure Lockouts where
  authFailures : FailureTable := ∅
  log : List AuthRecord := []

namespace Lockouts

def attempt (record : FailureTable → ℕ → Bytes → Bool → FailureTable) (sha256 : Bytes → Bytes)
    (l : Lockouts) (a : Attempt) : Lockouts :=
  if l.authFailures.authAllowed a.now a.user then
    ⟨record l.authFailures (a.now + a.delay) a.user (a.succeeds sha256),
      l.log ++ [⟨a.user, a.now + a.delay, a.succeeds sha256⟩]⟩
  else l

def run (record : FailureTable → ℕ → Bytes → Bool → FailureTable) (sha256 : Bytes → Bytes)
    (attempts : List Attempt) :
    Lockouts :=
  attempts.foldl (attempt record sha256) {}

def InOrder (attempts : List Attempt) : Prop := attempts.IsChain fun a b => a.now + a.delay ≤ b.now

theorem handshake_attempt {n : ℕ} (sha256 : Bytes → Bytes) (s : Session) (m : Moment n)
    (host : Host n) (cmd : Bytes)
    {user token : Bytes} (hc : credentials cmd = some (user, token)) (log : List AuthRecord) :
    (s.handshake sha256 m cmd host).host.authFailures =
      (attempt FailureTable.recordAuthResult sha256 ⟨host.authFailures, log⟩
        ⟨user, token, host.db.users, m.now, m.delay⟩).authFailures := by
  simp only [Session.handshake, hc, attempt, Attempt.succeeds]
  cases host.authFailures.authAllowed m.now user with
  | false => simp
  | true => cases host.db.users.authenticate sha256 user token <;> simp

variable {record : FailureTable → ℕ → Bytes → Bool → FailureTable} {sha256 : Bytes → Bytes}
  {l : Lockouts}
variable {attempts : List Attempt} {a : Attempt} {now : ℕ}

/-- `record` keeps the table in step with the failures. -/
structure Records (record : FailureTable → ℕ → Bytes → Bool → FailureTable) : Prop where
  success : ∀ {table : FailureTable} {f now}, table.Tracks f now → ∀ user,
    (record table now user true).Tracks (Function.update f user []) now
  failure : ∀ {table : FailureTable} {f now}, table.Tracks f now →
    ∀ user, ¬ LockedOut (f user) now →
    (record table now user false).Tracks (Function.update f user (now :: f user)) now

lemma records_recordAuthResult : Records FailureTable.recordAuthResult :=
  ⟨FailureTable.Tracks.success, FailureTable.Tracks.failure⟩

lemma records_recordUnpurged : Records FailureTable.recordUnpurged :=
  ⟨FailureTable.Tracks.success, FailureTable.Tracks.unpurged_failure⟩

def failures (l : Lockouts) (user : Bytes) : List ℕ := failureTimes (recordsOf l.log user)

lemma attempt_tracks (hr : Records record) (h : l.authFailures.Tracks l.failures a.now) :
    (l.attempt record sha256 a).authFailures.Tracks (l.attempt record sha256 a).failures
    (a.now + a.delay) := by
  have hlater := h.later (Nat.le_add_right a.now a.delay)
  simp only [attempt]
  split_ifs with hallow
  · have hlock : ¬ LockedOut (l.failures a.user) (a.now + a.delay) := fun hl =>
      (h.authAllowed_iff a.user).mp hallow (le_trans hl (streak_mono (Nat.le_add_right _ _) _))
    have hlog := failureTimes_recordsOf_concat l.log ⟨a.user, a.now + a.delay, a.succeeds sha256⟩
    change FailureTable.Tracks _ (fun user => failureTimes (recordsOf (l.log ++ [_]) user)) _
    rw [hlog]
    cases a.succeeds sha256 with
    | true => exact hr.success hlater a.user
    | false => exact hr.failure hlater a.user hlock
  · exact hlater

lemma run_concat (attempts : List Attempt) (a : Attempt) :
    run record sha256 (attempts ++ [a]) = (run record sha256 attempts).attempt record sha256 a := by
  simp [run]

lemma run_tracks (hr : Records record) (h : InOrder (attempts ++ [a])) :
    (run record sha256 attempts).authFailures.Tracks
    (run record sha256 attempts).failures a.now := by
  induction attempts using List.reverseRecOn generalizing a with
  | nil => exact .empty a.now
  | append_singleton attempts b ih =>
    obtain ⟨hfront, hle, -⟩ : InOrder (attempts ++ [b]) ∧ b.now + b.delay ≤ a.now ∧
        InOrder [a] := by
      rw [InOrder, List.append_assoc] at h
      exact List.isChain_append_cons_cons.mp h
    rw [run_concat]
    exact (attempt_tracks hr (ih hfront)).later hle

variable (sha256) in
lemma allowed_iff (hr : Records record) (h : InOrder (attempts ++ [a])) :
    (run record sha256 attempts).authFailures.authAllowed a.now a.user = true ↔
      ¬ EndsInFailures (recordsOf (run record sha256 attempts).log a.user) a.now := by
  rw [(run_tracks hr h).authAllowed_iff a.user, ← lockedOut_iff]
  rfl

variable (sha256) in
lemma log_eq {record' : FailureTable → ℕ → Bytes → Bool → FailureTable} (hr : Records record)
    (hr' : Records record') (h : InOrder attempts) :
    (run record sha256 attempts).log = (run record' sha256 attempts).log := by
  induction attempts using List.reverseRecOn with
  | nil => rfl
  | append_singleton attempts b ih =>
    have hlog := ih (List.IsChain.left_of_append h)
    have hsame : (run record sha256 attempts).authFailures.authAllowed b.now b.user =
        (run record' sha256 attempts).authFailures.authAllowed b.now b.user := by
      rw [Bool.eq_iff_iff, allowed_iff sha256 hr h, allowed_iff sha256 hr' h, hlog]
    simp only [run_concat, attempt, hsame]
    split_ifs
    · rw [hlog]
    · exact hlog

/-- An attempt is refused before its token is compared exactly when the results recorded under its
name end in enough failures, and so it is with a table that is never purged. -/
theorem refused_iff (sha256 : Bytes → Bytes) (attempts : List Attempt) (a : Attempt)
    (h : InOrder (attempts ++ [a])) :
    ((run FailureTable.recordAuthResult sha256 attempts).authFailures.authAllowed a.now a.user =
      false ↔
      EndsInFailures (recordsOf (run FailureTable.recordAuthResult sha256 attempts).log a.user)
        a.now) ∧
    (run FailureTable.recordUnpurged sha256 attempts).authFailures.authAllowed a.now a.user =
      (run FailureTable.recordAuthResult sha256 attempts).authFailures.authAllowed a.now
        a.user := by
  have hrule := allowed_iff sha256 records_recordAuthResult h
  have hsame := log_eq sha256 records_recordAuthResult records_recordUnpurged
    (List.IsChain.left_of_append h)
  constructor
  · rw [← Bool.not_eq_true, hrule, not_not]
  · rw [Bool.eq_iff_iff, hrule, allowed_iff sha256 records_recordUnpurged h, hsame]

def sixAttempts : List Attempt :=
  (List.range 6).map fun i => ⟨ascii "bob", ascii "x", ∅, (i + 1) * 10 ^ 10, 1⟩

def lateAttempt : Attempt := ⟨ascii "bob", ascii "x", ∅, 10 ^ 11, 1⟩

theorem sixAttempts_refused :
    InOrder (sixAttempts ++ [lateAttempt]) ∧
      ((run FailureTable.recordAuthResult id sixAttempts).authFailures.authAllowed lateAttempt.now
        lateAttempt.user = false ↔ EndsInFailures
        (recordsOf (run FailureTable.recordAuthResult id sixAttempts).log lateAttempt.user)
          lateAttempt.now) ∧
      (run FailureTable.recordUnpurged id sixAttempts).authFailures.authAllowed lateAttempt.now
        lateAttempt.user =
        (run FailureTable.recordAuthResult id sixAttempts).authFailures.authAllowed lateAttempt.now
          lateAttempt.user := by
  have h : InOrder (sixAttempts ++ [lateAttempt]) := by
    unfold InOrder
    decide
  exact ⟨h, refused_iff id sixAttempts lateAttempt h⟩

end Lockouts

end Zest
