import ZestDB.Server.Lockout

/-! Sessions, reloads and the lockout together: on whose behalf a command is executed. -/

namespace Zest

open Foundations

/-- A session and its connection; `batch` is the payload it serves and how far it has come. -/
structure Connection where
  session : Session := {}
  batch : Option (Bytes × Batch) := none
  closed : Bool := false

namespace Connection

def receive (c : Connection) (payload : Bytes) : Connection :=
  if c.closed || c.batch.isSome then c
  else if payload.length >
    (if c.session.authenticated then MAX_PAYLOAD_SIZE else MAX_UNAUTHENTICATED_PAYLOAD_SIZE) then
    { c with closed := true }
  else { c with batch := some (payload, {}) }

def turn (c : Connection) : Turn :=
  match c.batch with
  | none => .done
  | some (payload, b) => if c.closed then .done else b.turn payload

def handled {n : ℕ} (c : Connection) (pf : Platform) (offset : ℕ) (h : Handled n) : Connection :=
  { c with session := h.session, batch := c.batch.map fun p => (p.1, p.2.next pf offset h) }

def finished (c : Connection) : Connection :=
  { c with batch := none, closed := c.closed || (c.batch.any fun p => p.2.shouldClose) }

def Closing (c : Connection) : Prop := c.closed = true ∨ ∃ payload b, c.batch = some (payload, b) ∧
  b.shouldClose = true

lemma Closing.turn {c : Connection} (h : c.Closing) : c.turn = .done := by
  cases hb : c.batch with
  | none => simp [Connection.turn, hb]
  | some p =>
    obtain ⟨payload, b⟩ := p
    rcases h with h | ⟨payload', b', hb', hclose⟩
    · simp [Connection.turn, hb, h]
    · obtain ⟨-, rfl⟩ := Prod.mk.inj (Option.some.inj (hb.symm.trans hb'))
      simp [Connection.turn, hb, Batch.turn, hclose]

lemma Closing.finished {c : Connection} (h : c.Closing) : c.finished.closed = true := by
  rcases h with h | ⟨payload, b, hb, hclose⟩
  · simp [Connection.finished, h]
  · simp [Connection.finished, hb, hclose]

lemma Closing.receive {c : Connection} (h : c.Closing) (payload : Bytes) :
    c.receive payload = c := by
  have hbusy : (c.closed || c.batch.isSome) = true := by
    rcases h with h | ⟨payload', b, hb, -⟩
    · simp [h]
    · simp [hb]
  rw [Connection.receive, if_pos hbusy]

lemma receive_session (c : Connection) (payload : Bytes) :
    (c.receive payload).session = c.session := by
  simp only [Connection.receive]
  split_ifs <;> rfl

lemma handled_closing {n : ℕ} {c : Connection} {pf : Platform} {cmd : Bytes} {offset : ℕ}
    {h : Handled n} (hturn : c.turn = .command cmd offset) (hclose : h.shouldClose = true) :
    (c.handled pf offset h).Closing := by
  cases hb : c.batch with
  | none => simp [Connection.turn, hb] at hturn
  | some p => exact Or.inr ⟨p.1, p.2.next pf offset h, by simp [handled, hb], hclose⟩

end Connection

structure Server (n : ℕ) where
  host : Host n
  connections : ℕ → Connection
  clock : ℕ

namespace Server

variable {n : ℕ} {pf : Platform} {sha256 : Bytes → Bytes}

/-- What happens next; the clock goes on by `elapsed` before a command is handled. -/
inductive Event (n : ℕ) where
  | receive (i : ℕ) (payload : Bytes)
  | turn (i : ℕ) (elapsed delay : ℕ) (choices : Choices n) (archived : Bool)
      (rewritten : TypedConfig)
  | disconnect (i : ℕ)
  | edit (file : ConfigFile)
  | reload

def setConnection (v : Server n) (i : ℕ) (c : Connection) : Server n :=
  { v with connections := Function.update v.connections i c }

variable [NeZero n]

omit [NeZero n] in
@[simp] lemma setConnection_connections (v : Server n) (i j : ℕ) (c : Connection) :
    (v.setConnection i c).connections j = if j = i then c else v.connections j := by
  simp [setConnection, Function.update_apply]

def handle (pf : Platform) (sha256 : Bytes → Bytes) (v : Server n) (i : ℕ) (m : Moment n)
    (cmd : Bytes) : Handled n :=
  (v.connections i).session.handleCommand pf sha256 m cmd v.host

def step (pf : Platform) (sha256 : Bytes → Bytes) (v : Server n) : Event n → Server n
  | .receive i payload => v.setConnection i ((v.connections i).receive payload)
  | .turn i elapsed delay choices archived rewritten =>
    match (v.connections i).turn with
    | .command cmd offset =>
      let h := v.handle pf sha256 i ⟨v.clock + elapsed, delay, choices, archived, rewritten⟩ cmd
      { v.setConnection i ((v.connections i).handled pf offset h) with
        host := h.host
        clock := v.clock + elapsed + delay }
    | _ => v.setConnection i (v.connections i).finished
  | .disconnect i => v.setConnection i { v.connections i with closed := true }
  | .edit file => { v with host := { v.host with db := { v.host.db with config := file } } }
  | .reload => { v with host := { v.host with db := (ZestDB.reloadConfig pf v.host.db).final } }

def run (pf : Platform) (sha256 : Bytes → Bytes) (v : Server n) (es : List (Event n)) : Server n :=
  es.foldl (step pf sha256) v

/-- The session, the command and the role that `execCmd` is called with, if it is called. -/
def executes (pf : Platform) (sha256 : Bytes → Bytes) (v : Server n) :
    Event n → Option (ℕ × Bytes × Role)
  | .turn i elapsed delay choices archived rewritten =>
    match (v.connections i).turn with
    | .command cmd _ =>
      (v.handle pf sha256 i ⟨v.clock + elapsed, delay, choices, archived,
        rewritten⟩ cmd).executed.map fun x => (i, x)
    | _ => none
  | _ => none

def handles (v : Server n) : Event n → Option (ℕ × Bytes)
  | .turn i _ _ _ _ _ =>
    match (v.connections i).turn with
    | .command cmd _ => some (i, cmd)
    | _ => none
  | _ => none

omit [NeZero n] in
def times (v : Server n) : Event n → ℕ × ℕ
  | .turn _ elapsed delay _ _ _ => (v.clock + elapsed, v.clock + elapsed + delay)
  | _ => (v.clock, v.clock)

def presents (v : Server n) (e : Event n) : Option (ℕ × Bytes × Bytes) :=
  match v.handles e with
  | some (i, cmd) => if (v.connections i).session.authenticated then
      none else (credentials cmd).map fun x => (i, x)
  | none => none

/-- The times of the failures of each name since its last success, after one more event. An attempt
that the lockout refuses is no failure. -/
def recordFailures (sha256 : Bytes → Bytes) (v : Server n) (e : Event n) (f : Bytes → List ℕ) :
    Bytes → List ℕ :=
  match v.presents e with
  | none => f
  | some (_, user, token) =>
    if LockedOut (f user) (v.times e).1 then f
    else if (v.host.db.users.authenticate sha256 user token).isSome then Function.update f user []
    else Function.update f user ((v.times e).2 :: f user)

def failuresFrom (pf : Platform) (sha256 : Bytes → Bytes) : Server n → (Bytes → List ℕ) →
    List (Event n) → Bytes → List ℕ
  | _, f, [] => f
  | v, f, e :: es => failuresFrom pf sha256 (v.step pf sha256 e) (v.recordFailures sha256 e f) es

def fresh (db : ZestDB n) (clock : ℕ) : Server n := ⟨⟨db, ∅⟩, fun _ => {}, clock⟩

/-- Session `i` presented the token of `user`, who existed and was not locked out. -/
def Authorized (pf : Platform) (sha256 : Bytes → Bytes) (start : Server n) (es : List (Event n))
    (i : ℕ) (user : Bytes) : Prop :=
  ∃ before e after token entry, es = before ++ e :: after ∧
    (run pf sha256 start before).handles e = some (i, AUTH_PREFIX ++ (user ++ 46 :: token)) ∧
    46 ∉ user ∧ (run pf sha256 start before).host.db.users.lookup user = some entry ∧
    sha256 token = entry.tokenHash ∧
    ¬ LockedOut (failuresFrom pf sha256 start (fun _ => []) before user)
    ((run pf sha256 start before).times e).1

/-- No command of session `i` is ever executed again, and its connection is closed. -/
def Over (pf : Platform) (sha256 : Bytes → Bytes) (v : Server n) (i : ℕ) : Prop :=
  (∀ es e cmd role, (run pf sha256 v es).executes pf sha256 e ≠ some (i, cmd, role)) ∧
    ∀ elapsed delay choices archived rewritten,
      ((v.step pf sha256 (.turn i elapsed delay choices archived rewritten)).connections i).closed =
        true

section Lemmas

variable {v : Server n} {e : Event n} {es : List (Event n)} {f : Bytes → List ℕ} {i : ℕ}
  {cmd : Bytes} {role : Role}

lemma run_concat (v : Server n) (es : List (Event n)) (e : Event n) :
    run pf sha256 v (es ++ [e]) = (run pf sha256 v es).step pf sha256 e := by
  simp [run]

lemma failuresFrom_concat (v : Server n) (f : Bytes → List ℕ) (es : List (Event n)) (e : Event n) :
    failuresFrom pf sha256 v f (es ++ [e]) =
      (run pf sha256 v es).recordFailures sha256 e (failuresFrom pf sha256 v f es) := by
  induction es generalizing v f with
  | nil => rfl
  | cons e' es ih => exact ih _ _

omit [NeZero n] in
lemma handles_iff : v.handles e = some (i, cmd) ↔ ∃ elapsed delay choices archived rewritten offset,
    e = .turn i elapsed delay choices archived rewritten ∧ (v.connections i).turn =
      .command cmd offset := by
  cases e with
  | turn j elapsed delay choices archived rewritten =>
    simp only [handles]
    constructor
    · intro h
      split at h
      · next cmd' offset hturn =>
        obtain ⟨rfl, rfl⟩ := Prod.mk.inj (Option.some.inj h)
        exact ⟨elapsed, delay, choices, archived, rewritten, offset, rfl, hturn⟩
      · cases h
    · rintro ⟨_, _, _, _, _, offset, hev, hturn⟩
      cases hev
      rw [hturn]
  | _ => simp [handles]

lemma handleCommand_executed {s : Session} {host : Host n} {m : Moment n} {c : Bytes} :
    (s.handleCommand pf sha256 m cmd host).executed = some (c, role) ↔
      c = cmd ∧ s.authenticated = true ∧ host.db.users.roleOf s.username = some role := by
  cases ha : s.authenticated with
  | false =>
    have hnone : (s.handshake sha256 m cmd host).executed = none := by
      simp only [Session.handshake]
      split
      · rfl
      · split_ifs
        · rfl
        · split <;> rfl
    simp [Session.handleCommand, ha, hnone]
  | true =>
    cases hr : host.db.users.roleOf s.username with
    | none => simp [Session.handleCommand, ha, hr]
    | some role' =>
      simp only [Session.handleCommand, ha, hr, Bool.not_true, Bool.false_eq_true, if_false,
        Option.some.injEq, Prod.mk.injEq, true_and]
      exact and_congr_left fun _ => eq_comm

lemma executes_iff : v.executes pf sha256 e = some (i, cmd, role) ↔ v.handles e = some (i, cmd) ∧
    (v.connections i).session.authenticated = true ∧
    v.host.db.users.roleOf (v.connections i).session.username = some role := by
  constructor
  · intro h
    cases e with
    | turn j elapsed delay choices archived rewritten =>
      simp only [executes] at h
      split at h
      · next cmd' offset hturn =>
        obtain ⟨⟨c, role'⟩, hexec, hx⟩ := Option.map_eq_some_iff.mp h
        obtain ⟨rfl, hcr⟩ := Prod.mk.inj hx
        obtain ⟨rfl, rfl⟩ := Prod.mk.inj hcr
        obtain ⟨rfl, ha, hr⟩ := handleCommand_executed.mp hexec
        exact ⟨handles_iff.mpr ⟨elapsed, delay, choices, archived, rewritten, offset, rfl, hturn⟩,
          ha, hr⟩
      · cases h
    | _ => simp [executes] at h
  · rintro ⟨hhandles, ha, hr⟩
    obtain ⟨elapsed, delay, choices, archived, rewritten, offset, rfl, hturn⟩ :=
      handles_iff.mp hhandles
    simp only [executes, hturn]
    rw [show (v.handle pf sha256 i _ cmd).executed =
      some (cmd, role) from handleCommand_executed.mpr ⟨rfl, ha, hr⟩]
    rfl

omit [NeZero n] in
lemma not_handles_of_closing (h : (v.connections i).Closing) : v.handles e ≠ some (i, cmd) := by
  intro hhandles
  obtain ⟨_, _, _, _, _, offset, -, hturn⟩ := handles_iff.mp hhandles
  rw [h.turn] at hturn
  cases hturn

lemma closing_step (h : (v.connections i).Closing) (e : Event n) :
    ((v.step pf sha256 e).connections i).Closing := by
  cases e with
  | receive j payload =>
    simp only [step, setConnection_connections]
    split_ifs with hj
    · rw [← hj, h.receive]
      exact h
    · exact h
  | turn j elapsed delay choices archived rewritten =>
    by_cases hj : i = j
    · subst hj
      simp only [step, h.turn, setConnection_connections, if_pos]
      exact Or.inl h.finished
    · simp only [step]
      split
      · simp only [setConnection_connections, if_neg hj]
        exact h
      · simp only [setConnection_connections, if_neg hj]
        exact h
  | disconnect j =>
    simp only [step, setConnection_connections]
    split_ifs
    · exact Or.inl rfl
    · exact h
  | edit file => exact h
  | reload => exact h

lemma closing_over (h : (v.connections i).Closing) : v.Over pf sha256 i := by
  constructor
  · intro es e cmd role hexec
    have hclosing : ∀ es, ((run pf sha256 v es).connections i).Closing := by
      intro es
      induction es using List.reverseRecOn with
      | nil => exact h
      | append_singleton es e ih =>
        rw [run_concat]
        exact closing_step ih e
    exact not_handles_of_closing (hclosing es) (executes_iff.mp hexec).1
  · intro elapsed delay choices archived rewritten
    simp only [step, h.turn, setConnection_connections, if_pos]
    exact h.finished

omit [NeZero n] in
lemma split_at_dot {rest : Bytes} (h : 46 ∈ rest) :
    rest.takeWhile (· ≠ 46) ++ 46 :: (rest.dropWhile (· ≠ 46)).drop 1 = rest := by
  induction rest with
  | nil => cases h
  | cons b rest ih =>
    by_cases hb : b = 46
    · subst hb
      simp
    · have hmem : 46 ∈ rest := (List.mem_cons.mp h).resolve_left (Ne.symm hb)
      rw [List.takeWhile_cons_of_pos (by simpa using hb),
        List.dropWhile_cons_of_pos (by simpa using hb), List.cons_append, ih hmem]

omit [NeZero n] in
lemma credentials_form {user token : Bytes} (h : credentials cmd = some (user, token)) :
    cmd = AUTH_PREFIX ++ (user ++ 46 :: token) ∧ 46 ∉ user := by
  simp only [credentials] at h
  split_ifs at h with hform
  obtain ⟨rfl, rfl⟩ := Prod.mk.inj (Option.some.inj h)
  rw [not_or, not_not, not_not] at hform
  refine ⟨?_, fun hmem => ?_⟩
  · have hcmd := List.take_append_drop AUTH_PREFIX.length cmd
    rw [hform.1] at hcmd
    rw [split_at_dot hform.2, hcmd]
  · have htrue := List.mem_takeWhile_imp hmem
    simp at htrue

lemma tracks_step (h : v.host.authFailures.Tracks f v.clock) (e : Event n) :
    (v.step pf sha256 e).host.authFailures.Tracks (v.recordFailures sha256 e f)
    (v.step pf sha256 e).clock := by
  cases e with
  | turn i elapsed delay choices archived rewritten =>
    cases hturn : (v.connections i).turn with
    | command cmd offset =>
      have hhandles : v.handles (.turn i elapsed delay choices archived rewritten) =
          some (i, cmd) :=
        handles_iff.mpr ⟨_, _, _, _, _, _, rfl, hturn⟩
      obtain ⟨m, hm⟩ : ∃ m : Moment n, m =
          ⟨v.clock + elapsed, delay, choices, archived, rewritten⟩ := ⟨_, rfl⟩
      have hhost : (v.step pf sha256 (.turn i elapsed delay choices archived rewritten)).host =
          (v.handle pf sha256 i m cmd).host := by
        simp only [step, hturn, hm]
      have hclock : (v.step pf sha256 (.turn i elapsed delay choices archived rewritten)).clock =
          m.now + m.delay := by
        simp only [step, hturn, hm]
      have htimes : v.times (.turn i elapsed delay choices archived rewritten) =
          (m.now, m.now + m.delay) := by
        rw [hm]
        rfl
      have hnow : v.host.authFailures.Tracks f m.now :=
        h.later (by rw [hm]; exact Nat.le_add_right _ _)
      have hlater := hnow.later (Nat.le_add_right m.now m.delay)
      rw [hhost, hclock]
      simp only [recordFailures, presents, hhandles, htimes, handle, Session.handleCommand]
      cases ha : (v.connections i).session.authenticated with
      | true =>
        cases v.host.db.users.roleOf (v.connections i).session.username <;> exact hlater
      | false =>
        simp only [Bool.not_false, if_true, Session.handshake]
        cases hcred : credentials cmd with
        | none => exact hlater
        | some ut =>
          obtain ⟨user, token⟩ := ut
          have hallowed := hnow.authAllowed_iff user
          by_cases hlock : LockedOut (f user) m.now
          · have hno : v.host.authFailures.authAllowed m.now user = false := by
              simpa [hlock] using hallowed
            simpa [hno, hlock] using hlater
          · have hyes : v.host.authFailures.authAllowed m.now user = true := hallowed.mpr hlock
            have hlock' : ¬ LockedOut (f user) (m.now + m.delay) := fun hl =>
              hlock (le_trans hl (streak_mono (Nat.le_add_right _ _) _))
            cases hauth : v.host.db.users.authenticate sha256 user token with
            | none => simpa [hyes, hlock, hauth] using hlater.failure user hlock'
            | some role => simpa [hyes, hlock, hauth] using hlater.success user
    | done =>
      simp only [step, hturn, recordFailures, presents, handles]
      exact h
    | malformed =>
      simp only [step, hturn, recordFailures, presents, handles]
      exact h
  | receive i payload => exact h
  | disconnect i => exact h
  | edit file => exact h
  | reload => exact h

variable (pf sha256) in
lemma tracks_run (db : ZestDB n) (clock : ℕ) (es : List (Event n)) :
    (run pf sha256 (fresh db clock) es).host.authFailures.Tracks
    (failuresFrom pf sha256 (fresh db clock) (fun _ => []) es)
      (run pf sha256 (fresh db clock) es).clock := by
  induction es using List.reverseRecOn with
  | nil => exact .empty clock
  | append_singleton es e ih =>
    rw [run_concat, failuresFrom_concat]
    exact tracks_step ih e

omit [NeZero n] in
lemma handshake_cases (sha256 : Bytes → Bytes) (s : Session) (m : Moment n) (cmd : Bytes)
    (host : Host n) :
    ((s.handshake sha256 m cmd host).session = s ∧ (s.handshake sha256 m cmd host).shouldClose =
      true) ∨ ∃ user token entry, cmd = AUTH_PREFIX ++ (user ++ 46 :: token) ∧ 46 ∉ user ∧
        host.authFailures.authAllowed m.now user = true ∧ host.db.users.lookup user = some entry ∧
        sha256 token = entry.tokenHash ∧ (s.handshake sha256 m cmd host).session =
          ⟨true, user⟩ := by
  simp only [Session.handshake]
  cases hcred : credentials cmd with
  | none => exact Or.inl ⟨rfl, rfl⟩
  | some ut =>
    obtain ⟨user, token⟩ := ut
    obtain ⟨hform, hdot⟩ := credentials_form hcred
    cases hallow : host.authFailures.authAllowed m.now user with
    | false => exact Or.inl ⟨by simp [hallow], by simp [hallow]⟩
    | true =>
      cases hauth : host.db.users.authenticate sha256 user token with
      | none => exact Or.inl ⟨by simp [hallow, hauth], by simp [hallow, hauth]⟩
      | some role =>
        simp only [Users.authenticate] at hauth
        split at hauth
        · cases hauth
        · next entry hlookup =>
          split_ifs at hauth with htoken
          refine Or.inr ⟨user, token, entry, hform, hdot, hallow, hlookup, htoken, ?_⟩
          simp [Users.authenticate, hallow, hlookup, htoken]

variable (pf sha256) in
lemma session_step (e : Event n) (i : ℕ) :
    ((v.step pf sha256 e).connections i).session = (v.connections i).session ∨
    ∃ user token entry, v.handles e = some (i, AUTH_PREFIX ++ (user ++ 46 :: token)) ∧ 46 ∉ user ∧
      v.host.authFailures.authAllowed (v.times e).1 user = true ∧ v.host.db.users.lookup user =
        some entry ∧ sha256 token = entry.tokenHash ∧ ((v.step pf sha256 e).connections i).session =
        ⟨true, user⟩ := by
  cases e with
  | receive j payload =>
    left
    simp only [step, setConnection_connections]
    split_ifs with hj
    · rw [hj, Connection.receive_session]
    · rfl
  | turn j elapsed delay choices archived rewritten =>
    by_cases hj : i = j
    · subst hj
      cases hturn : (v.connections i).turn with
      | command cmd offset =>
        have hhandles : v.handles (.turn i elapsed delay choices archived rewritten) =
            some (i, cmd) :=
          handles_iff.mpr ⟨_, _, _, _, _, _, rfl, hturn⟩
        have hsession :
            ((v.step pf sha256 (.turn i elapsed delay choices archived rewritten)).connections
              i).session = (v.handle pf sha256 i ⟨v.clock + elapsed, delay, choices, archived,
              rewritten⟩ cmd).session := by
          simp only [step, hturn, setConnection_connections, if_pos]
          rfl
        rw [hsession, hhandles]
        cases ha : (v.connections i).session.authenticated with
        | true =>
          left
          simp only [handle, Session.handleCommand, ha]
          cases v.host.db.users.roleOf (v.connections i).session.username <;> rfl
        | false =>
          have hhandle : v.handle pf sha256 i ⟨v.clock + elapsed, delay, choices, archived,
              rewritten⟩ cmd = (v.connections i).session.handshake sha256
              ⟨v.clock + elapsed, delay, choices, archived, rewritten⟩ cmd v.host := by
            simp only [handle, Session.handleCommand, ha]
            rfl
          rw [hhandle]
          rcases handshake_cases sha256 (v.connections i).session
            ⟨v.clock + elapsed, delay, choices, archived, rewritten⟩ cmd v.host with
            ⟨hs, -⟩ | ⟨user, token, entry, hform, hdot, hallow, hlookup, htoken, hs⟩
          · exact Or.inl hs
          · exact Or.inr ⟨user, token, entry, by rw [hform], hdot, hallow, hlookup, htoken, hs⟩
      | done =>
        left
        simp only [step, hturn, setConnection_connections, if_pos]
        rfl
      | malformed =>
        left
        simp only [step, hturn, setConnection_connections, if_pos]
        rfl
    · left
      simp only [step]
      split
      · simp only [setConnection_connections, if_neg hj]
      · simp only [setConnection_connections, if_neg hj]
  | disconnect j =>
    left
    simp only [step, setConnection_connections]
    split_ifs with hj
    · rw [hj]
    · rfl
  | edit file => exact Or.inl rfl
  | reload => exact Or.inl rfl

lemma Authorized.concat {start : Server n} {user : Bytes} (h : Authorized pf sha256 start es i user)
    (e : Event n) :
    Authorized pf sha256 start (es ++ [e]) i user := by
  obtain ⟨before, e', after, token, entry, rfl, hrest⟩ := h
  exact ⟨before, e', after ++ [e], token, entry, by simp, hrest⟩

variable (pf sha256) in
lemma authorized_run (db : ZestDB n) (clock : ℕ) (es : List (Event n)) (i : ℕ)
    (ha : ((run pf sha256 (fresh db clock) es).connections i).session.authenticated = true) :
    Authorized pf sha256 (fresh db clock) es i
    ((run pf sha256 (fresh db clock) es).connections i).session.username := by
  induction es using List.reverseRecOn with
  | nil => cases ha
  | append_singleton es e ih =>
    rw [run_concat] at ha ⊢
    rcases session_step pf sha256 (v := run pf sha256 (fresh db clock) es) e i with
      hs | ⟨user, token, entry, hhandles, hdot, hallow, hlookup, htoken, hs⟩
    · rw [hs] at ha ⊢
      exact (ih ha).concat e
    · rw [hs]
      have htracks := tracks_run pf sha256 db clock es
      have hlater : (run pf sha256 (fresh db clock) es).clock ≤
          ((run pf sha256 (fresh db clock) es).times e).1 := by
        cases e <;> simp [times]
      exact ⟨es, e, [], token, entry, rfl, hhandles, hdot, hlookup, htoken,
        ((htracks.later hlater).authAllowed_iff user).mp hallow⟩

lemma step_closing (hhandles : v.handles e = some (i, cmd))
    (h : ∀ m, (v.handle pf sha256 i m cmd).session.authenticated =
      ((v.step pf sha256 e).connections i).session.authenticated →
      (v.handle pf sha256 i m cmd).shouldClose = true) :
      ((v.step pf sha256 e).connections i).Closing := by
  obtain ⟨elapsed, delay, choices, archived, rewritten, offset, rfl, hturn⟩ :=
    handles_iff.mp hhandles
  simp only [step, hturn, setConnection_connections, if_pos] at h ⊢
  exact Connection.handled_closing hturn (h _ rfl)

/-- For every run: a command is executed for a session only after it presented the token of a user
that existed and was not locked out, and in the role this user has now; while the user does not
exist nothing is executed, and the next command ends the session; so does a failed
authentication. -/
theorem sessions_authorized (pf : Platform) (sha256 : Bytes → Bytes) (db : ZestDB n) (clock : ℕ)
    (es : List (Event n)) (i : ℕ) :
    (∀ e cmd role, (run pf sha256 (fresh db clock) es).executes pf sha256 e = some (i, cmd, role) →
      ∃ user, Authorized pf sha256 (fresh db clock) es i user ∧
        (run pf sha256 (fresh db clock) es).host.db.users.roleOf user = some role) ∧
    (((run pf sha256 (fresh db clock) es).connections i).session.authenticated = true →
      (run pf sha256 (fresh db clock) es).host.db.users.roleOf
        ((run pf sha256 (fresh db clock) es).connections i).session.username = none →
      ∀ e, (∀ cmd role, (run pf sha256 (fresh db clock) es).executes pf sha256 e ≠
        some (i, cmd, role)) ∧
        ∀ cmd, (run pf sha256 (fresh db clock) es).handles e = some (i, cmd) →
          ((run pf sha256 (fresh db clock) es).step pf sha256 e).Over pf sha256 i) ∧
    (∀ e cmd, (run pf sha256 (fresh db clock) es).handles e = some (i, cmd) →
      (((run pf sha256 (fresh db clock) es).step pf sha256 e).connections i).session.authenticated =
        false → ((run pf sha256 (fresh db clock) es).step pf sha256 e).Over pf sha256 i) := by
  obtain ⟨v, hv⟩ : ∃ v, v = run pf sha256 (fresh db clock) es := ⟨_, rfl⟩
  have hauthorized := authorized_run pf sha256 db clock es i
  rw [← hv] at hauthorized ⊢
  refine ⟨fun e cmd role hexec => ?_,
    fun ha hgone e => ⟨fun cmd role hexec => ?_, fun cmd hhandles => ?_⟩,
    fun e cmd hhandles hfailed => ?_⟩
  · obtain ⟨-, ha, hr⟩ := executes_iff.mp hexec
    exact ⟨_, hauthorized ha, hr⟩
  · obtain ⟨-, -, hr⟩ := executes_iff.mp hexec
    rw [hgone] at hr
    cases hr
  · refine closing_over (step_closing hhandles fun m _ => ?_)
    simp only [handle, Session.handleCommand, ha, hgone]
    rfl
  · refine closing_over (step_closing hhandles fun m hm => ?_)
    rw [hfailed] at hm
    have ha : (v.connections i).session.authenticated = false := by
      rcases session_step pf sha256 e i with hs | ⟨user, _, _, _, _, _, _, _, hs⟩
      · rw [← hs, hfailed]
      · rw [hs] at hfailed
        cases hfailed
    simp only [handle, Session.handleCommand, ha, Bool.not_false, if_true] at hm ⊢
    rcases handshake_cases sha256 (v.connections i).session m cmd v.host
      with ⟨-, hclose⟩ | ⟨user, _, _, _, _, _, _, _, hs⟩
    · exact hclose
    · rw [hs] at hm
      cases hm

end Lemmas

section Returning

def hashOfT : Bytes := ascii "e3b98a4da31a127d4bde6e43033f66ba274cab0eb7eb1c70ec41402bf6273dd8"

def withAlice : ConfigFile :=
  ⟨true, some {}, (∅ : Users).insert (ascii "alice") ⟨hashOfT, .Write⟩, true⟩

def anyRegex : Platform := ⟨fun _ => 0, id, fun _ => true, fun _ => some fun _ => true, id⟩

def loggedIn : List (Event 1) :=
  [.receive 0 (payloadOf [ascii "Authorization: alice.t"]), .turn 0 0 0 {} true default,
    .turn 0 0 0 {} true default]

def removed : List (Event 1) := loggedIn ++ [.edit { mapping := true, values := some {} }, .reload]

def returned : List (Event 1) :=
  removed ++ [.edit withAlice, .reload, .receive 0 (payloadOf [ascii "get a"])]

def sentWhileRemoved : List (Event 1) := removed ++ [.receive 0 (payloadOf [ascii "get a"])]

def started : Server 1 := fresh (ZestDB.construct withAlice {} {} {} fun _ => .empty) 0

/-- A user who is removed by one reload and put back by the next: the session goes on. -/
theorem returned_user_goes_on :
    ((run anyRegex (fun _ => hashOfT) started loggedIn).connections 0).session =
      ⟨true, ascii "alice"⟩ ∧
      (run anyRegex (fun _ => hashOfT) started loggedIn).host.db.users.roleOf (ascii "alice") =
        some .Write ∧
      (run anyRegex (fun _ => hashOfT) started removed).host.db.users.roleOf (ascii "alice") =
        none ∧
      (run anyRegex (fun _ => hashOfT) started returned).executes anyRegex (fun _ => hashOfT)
      (.turn 0 0 0 {} true default) = some (0, ascii "get a", .Write) := by
  decide +kernel

/-- The command that comes while the user is gone: it is not executed, and the session is over. -/
theorem removed_user_is_over :
    (∀ cmd role, (run anyRegex (fun _ => hashOfT) started sentWhileRemoved).executes anyRegex
      (fun _ => hashOfT) (.turn 0 0 0 {} true default) ≠ some (0, cmd, role)) ∧
    ((run anyRegex (fun _ => hashOfT) started sentWhileRemoved).step anyRegex (fun _ => hashOfT)
      (.turn 0 0 0 {} true default)).Over anyRegex (fun _ => hashOfT) 0 := by
  have h :=
    (sessions_authorized anyRegex (fun _ => hashOfT)
      (ZestDB.construct withAlice {} {} {} fun _ => .empty) 0
    sentWhileRemoved 0).2.1 (by decide +kernel) (by decide +kernel) (.turn 0 0 0 {} true default)
  exact ⟨h.1, h.2 (ascii "get a") (by decide +kernel)⟩

end Returning

end Server

end Zest
