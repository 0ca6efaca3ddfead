import ZestDB.Server.Attempts

/-! Handshakes on several threads: the `authAllowed`, `authenticate` and `recordAuthResult` of one
session come between those of the others. -/

namespace Zest

open Foundations

inductive Stage where
  | waiting
  | allowed
  | checked (success : Bool)
  | done
deriving DecidableEq, Repr

structure Login where
  user : Bytes
  token : Bytes
  stage : Stage := .waiting
deriving DecidableEq, Repr

inductive Happening where
  | checked (user : Bytes) (time : ℕ)
  | recorded (r : AuthRecord)
deriving DecidableEq, Repr

/-- The table of failures, the handshakes of all sessions, and what happened in their order. -/
structure Race where
  logins : List Login
  clock : ℕ := 0
  authFailures : FailureTable := ∅
  trace : List Happening := []

namespace Race

inductive Action where
  | authAllowed
  | authenticate (users : Users)
  | recordAuthResult

/-- The next action of a session, `elapsed` after the one before. -/
structure Step where
  session : ℕ
  action : Action
  elapsed : ℕ

/-- Each action under its own lock; a session takes them in the order of `handle_command`. -/
def step (sha256 : Bytes → Bytes) (r : Race) (e : Step) : Race :=
  let now := r.clock + e.elapsed
  match r.logins[e.session]? with
  | none => { r with clock := now }
  | some s =>
    match e.action, s.stage with
    | .authAllowed, .waiting =>
      { r with
        clock := now
        logins := r.logins.set e.session
          { s with stage := if r.authFailures.authAllowed now s.user then .allowed else .done } }
    | .authenticate users, .allowed =>
      { r with
        clock := now
        logins := r.logins.set e.session
          { s with stage := .checked (users.authenticate sha256 s.user s.token).isSome }
        trace := r.trace ++ [.checked s.user now] }
    | .recordAuthResult, .checked success =>
      { clock := now
        logins := r.logins.set e.session { s with stage := .done }
        authFailures := r.authFailures.recordAuthResult now s.user success
        trace := r.trace ++ [.recorded ⟨s.user, now, success⟩] }
    | _, _ => { r with clock := now }

def run (sha256 : Bytes → Bytes) (r : Race) (es : List Step) : Race := es.foldl (step sha256) r

def along (sha256 : Bytes → Bytes) (p : Race → Step → Bool) : Race → List Step → Bool
  | _, [] => true
  | r, e :: es => p r e && along sha256 p (r.step sha256 e) es

def wrong (sha256 : Bytes → Bytes) (r : Race) (e : Step) : Bool :=
  match e.action, r.logins[e.session]? with
  | .authenticate users, some s =>
    s.stage ≠ .allowed || (users.authenticate sha256 s.user s.token).isNone
  | _, _ => true

def Stage.underWay : Stage → Bool
  | .allowed => true
  | .checked _ => true
  | _ => false

def Stage.unrecorded : Stage → Bool
  | .checked _ => true
  | _ => false

def count (q : Stage → Bool) (logins : List Login) (user : Bytes) : ℕ :=
  logins.countP fun s => s.user = user && q s.stage

end Race

/-- The failures under a name that `recordAuthResult` would count further. -/
def FailureTable.counted (table : FailureTable) (now : ℕ) (username : Bytes) : ℕ :=
  let entry := (table.lookup username).getD ⟨0, 0⟩
  if entry.expires ≤ now then 0 else entry.failures

namespace Race

/-- A session is only let through while the failures that count and the handshakes under way are
fewer than five together. -/
def spare (r : Race) (e : Step) : Bool :=
  let now := r.clock + e.elapsed
  match e.action, r.logins[e.session]? with
  | .authAllowed, some s =>
    s.stage ≠ .waiting || !r.authFailures.authAllowed now s.user ||
      r.authFailures.counted now s.user + count Stage.underWay r.logins s.user < MAX_AUTH_FAILURES
  | _, _ => true

def logOf (trace : List Happening) : List AuthRecord :=
  trace.filterMap fun
    | .checked _ _ => none
    | .recorded r => some r

def recordsIn (trace : List Happening) (user : Bytes) : List AuthRecord :=
  recordsOf (logOf trace) user

def checksIn (trace : List Happening) (user : Bytes) : ℕ :=
  trace.countP fun
    | .checked u _ => u = user
    | .recorded _ => false

/-- The lockout as it is meant: a token compared for `user` is at most the fifth, failures that are
forgotten apart, and none is compared within the lockout after five failures. -/
structure Guarded (trace : List Happening) (user : Bytes) : Prop where
  few : ∀ before t after, trace = before ++ .checked user t :: after →
    checksIn before user + 1 + streak t (failureTimes (recordsIn before user)) ≤
      MAX_AUTH_FAILURES + (recordsIn before user).length
  locked : ∀ before t after, trace = before ++ .checked user t :: after →
    ¬ EndsInFailures (recordsIn before user) t

variable {sha256 : Bytes → Bytes} {r : Race} {e : Step} {es : List Step} {trace : List Happening}
  {user : Bytes}

@[simp] lemma recordsIn_checked (trace : List Happening) (u : Bytes) (t : ℕ) (user : Bytes) :
    recordsIn (trace ++ [.checked u t]) user = recordsIn trace user := by
  simp [recordsIn, logOf]

lemma recordsIn_recorded (trace : List Happening) (x : AuthRecord) (user : Bytes) :
    recordsIn (trace ++ [.recorded x]) user =
      if x.user = user then recordsIn trace user ++ [x] else recordsIn trace user := by
  simp only [recordsIn, logOf, List.filterMap_append]
  exact recordsOf_concat _ x user

lemma failureTimes_recorded (trace : List Happening) (x : AuthRecord) :
    (fun user => failureTimes (recordsIn (trace ++ [.recorded x]) user)) =
      Function.update (fun user => failureTimes (recordsIn trace user)) x.user
        (if x.success then [] else x.time :: failureTimes (recordsIn trace x.user)) := by
  simp only [recordsIn, logOf, List.filterMap_append]
  exact failureTimes_recordsOf_concat _ x

lemma checksIn_checked (trace : List Happening) (u : Bytes) (t : ℕ) (user : Bytes) :
    checksIn (trace ++ [.checked u t]) user = checksIn trace user + if u = user then 1 else 0 := by
  simp [checksIn, List.countP_cons]

@[simp] lemma checksIn_recorded (trace : List Happening) (x : AuthRecord) (user : Bytes) :
    checksIn (trace ++ [.recorded x]) user = checksIn trace user := by
  simp [checksIn]

lemma concat_split {α : Type} {l before after : List α} {x y : α}
    (h : l ++ [x] = before ++ y :: after) :
    (after = [] ∧ l = before ∧ x = y) ∨ ∃ rest, after = rest ++ [x] ∧ l = before ++ y :: rest := by
  rcases List.eq_nil_or_concat after with rfl | ⟨rest, z, rfl⟩
  · obtain ⟨hl, hx⟩ := List.append_inj' h rfl
    exact Or.inl ⟨rfl, hl, by simpa using hx⟩
  · rw [List.concat_eq_append, ← List.cons_append, ← List.append_assoc] at h
    obtain ⟨hl, hx⟩ := List.append_inj' h rfl
    obtain rfl : x = z := by simpa using hx
    exact Or.inr ⟨rest, List.concat_eq_append, hl⟩

lemma Guarded.recorded (h : Guarded trace user) (x : AuthRecord) :
    Guarded (trace ++ [.recorded x]) user := by
  constructor
  · intro before t after hs
    rcases concat_split hs with ⟨-, -, hx⟩ | ⟨rest, -, hl⟩
    · cases hx
    · exact h.few before t rest hl
  · intro before t after hs
    rcases concat_split hs with ⟨-, -, hx⟩ | ⟨rest, -, hl⟩
    · cases hx
    · exact h.locked before t rest hl

lemma Guarded.checked (h : Guarded trace user) {u : Bytes} {t : ℕ}
    (hfew : u = user → checksIn trace user + 1 + streak t (failureTimes (recordsIn trace user)) ≤
      MAX_AUTH_FAILURES + (recordsIn trace user).length)
    (hlock : u = user → ¬ EndsInFailures (recordsIn trace user) t) :
    Guarded (trace ++ [.checked u t]) user := by
  constructor
  · intro before t' after hs
    rcases concat_split hs with ⟨-, rfl, hx⟩ | ⟨rest, -, hl⟩
    · cases hx
      exact hfew rfl
    · exact h.few before t' rest hl
  · intro before t' after hs
    rcases concat_split hs with ⟨-, rfl, hx⟩ | ⟨rest, -, hl⟩
    · cases hx
      exact hlock rfl
    · exact h.locked before t' rest hl

lemma count_cons (q : Stage → Bool) (s : Login) (logins : List Login) (user : Bytes) :
    count q (s :: logins) user = count q logins user + if s.user = user then
    (q s.stage).toNat else 0 := by
  rw [count, List.countP_cons]
  by_cases hu : s.user = user
  · cases q s.stage <;> simp [count, hu]
  · simp [count, hu]

lemma count_set {q : Stage → Bool} {logins : List Login} {i : ℕ} {s x : Login}
    (hs : logins[i]? = some s) (hx : x.user = s.user) (user : Bytes) :
    count q (logins.set i x) user + (if s.user = user then (q s.stage).toNat else 0) =
      count q logins user + (if s.user = user then (q x.stage).toNat else 0) := by
  induction logins generalizing i with
  | nil => simp at hs
  | cons y logins ih =>
    cases i with
    | zero =>
      obtain rfl : y = s := by simpa using hs
      rw [List.set_cons_zero, count_cons, count_cons, hx]
      omega
    | succ i =>
      have := ih (by simpa using hs)
      rw [List.set_cons_succ, count_cons, count_cons]
      omega

lemma step_cases (sha256 : Bytes → Bytes) (r : Race) (e : Step) :
    r.step sha256 e = { r with clock := r.clock + e.elapsed } ∨
    (∃ s, e.action = .authAllowed ∧ r.logins[e.session]? = some s ∧ s.stage = .waiting ∧
      r.step sha256 e =
        { r with
          clock := r.clock + e.elapsed
          logins := r.logins.set e.session
            { s with stage := if r.authFailures.authAllowed (r.clock + e.elapsed) s.user then
              .allowed else .done } }) ∨
    (∃ s users, e.action = .authenticate users ∧ r.logins[e.session]? = some s ∧
      s.stage = .allowed ∧ r.step sha256 e = { r with
          clock := r.clock + e.elapsed
          logins := r.logins.set e.session
            { s with stage := .checked (users.authenticate sha256 s.user s.token).isSome }
          trace := r.trace ++ [.checked s.user (r.clock + e.elapsed)] }) ∨
    (∃ s success, r.logins[e.session]? = some s ∧ s.stage = .checked success ∧
      r.step sha256 e =
        { clock := r.clock + e.elapsed
          logins := r.logins.set e.session { s with stage := .done }
          authFailures := r.authFailures.recordAuthResult (r.clock + e.elapsed) s.user success
          trace := r.trace ++ [.recorded ⟨s.user, r.clock + e.elapsed, success⟩] }) := by
  obtain ⟨i, action, elapsed⟩ := e
  cases hs : r.logins[i]? with
  | none => exact Or.inl (by simp [step, hs])
  | some s =>
    obtain ⟨user, token, stage⟩ := s
    cases action with
    | authAllowed =>
      cases stage with
      | waiting => exact Or.inr (Or.inl ⟨_, rfl, rfl, rfl, by simp [step, hs]⟩)
      | _ => exact Or.inl (by simp [step, hs])
    | authenticate users =>
      cases stage with
      | allowed => exact Or.inr (Or.inr (Or.inl ⟨_, users, rfl, rfl, rfl, by simp [step, hs]⟩))
      | _ => exact Or.inl (by simp [step, hs])
    | recordAuthResult =>
      cases stage with
      | checked success => exact Or.inr (Or.inr (Or.inr ⟨_, success, rfl, rfl, by simp [step, hs]⟩))
      | _ => exact Or.inl (by simp [step, hs])

/-- What a run in which only wrong tokens are compared keeps, as long as sessions are only let
through with room to spare. -/
structure Steady (r : Race) : Prop where
  tracks : r.authFailures.Tracks (fun user => failureTimes (recordsIn r.trace user)) r.clock
  room : ∀ user, streak r.clock (failureTimes (recordsIn r.trace user)) +
    count Stage.underWay r.logins user ≤ MAX_AUTH_FAILURES
  checks : ∀ user, checksIn r.trace user =
    (recordsIn r.trace user).length + count Stage.unrecorded r.logins user
  failed : ∀ s ∈ r.logins, s.stage ≠ .checked true
  guarded : ∀ user, Guarded r.trace user

lemma Steady.later (h : Steady r) (elapsed : ℕ) : Steady { r with clock := r.clock + elapsed } := by
  refine ⟨h.tracks.later (Nat.le_add_right _ _), fun user => ?_, h.checks, h.failed, h.guarded⟩
  exact (Nat.add_le_add_right (streak_mono (Nat.le_add_right _ _) _) _).trans (h.room user)

lemma failed_set (h : ∀ s ∈ r.logins, s.stage ≠ .checked true) {i : ℕ} {x : Login}
    (hx : x.stage ≠ .checked true) :
    ∀ s ∈ r.logins.set i x, s.stage ≠ .checked true := by
  intro s hs
  rcases List.mem_or_eq_of_mem_set hs with hs | rfl
  · exact h s hs
  · exact hx

lemma Steady.allow (h : Steady r) {i : ℕ} {s x : Login} (hs : r.logins[i]? = some s)
    (hw : s.stage = .waiting) (hspare : r.authFailures.authAllowed r.clock s.user = true →
      r.authFailures.counted r.clock s.user + count Stage.underWay r.logins s.user <
        MAX_AUTH_FAILURES)
    (hx : x = { s with stage := if r.authFailures.authAllowed r.clock s.user then
      .allowed else .done }) :
    Steady { r with logins := r.logins.set i x } := by
  have hxu : x.user = s.user := by rw [hx]
  have hcount := fun (q : Stage → Bool) => count_set (q := q) hs hxu
  cases hb : r.authFailures.authAllowed r.clock s.user with
  | false =>
    have hxs : x.stage = .done := by simp [hx, hb]
    refine ⟨h.tracks, fun user => ?_, fun user => ?_, failed_set h.failed (by simp [hxs]),
      h.guarded⟩
    · have hset := hcount Stage.underWay user
      simp only [hw, hxs, Stage.underWay, Bool.toNat_false, ite_self] at hset
      have := h.room user
      dsimp only
      omega
    · have hset := hcount Stage.unrecorded user
      simp only [hw, hxs, Stage.unrecorded, Bool.toNat_false, ite_self] at hset
      have := h.checks user
      dsimp only
      omega
  | true =>
    have hxs : x.stage = .allowed := by simp [hx, hb]
    refine ⟨h.tracks, fun user => ?_, fun user => ?_, failed_set h.failed (by simp [hxs]),
      h.guarded⟩
    · have hset := hcount Stage.underWay user
      simp only [hw, hxs, Stage.underWay, Bool.toNat_false, Bool.toNat_true, ite_self] at hset
      dsimp only
      by_cases hu : s.user = user
      · subst hu
        have hroom := hspare hb
        rw [FailureTable.counted, h.tracks.counted_eq] at hroom
        rw [if_pos rfl] at hset
        omega
      · rw [if_neg hu] at hset
        have := h.room user
        omega
    · have hset := hcount Stage.unrecorded user
      simp only [hw, hxs, Stage.unrecorded, Bool.toNat_false, ite_self] at hset
      have := h.checks user
      dsimp only
      omega

lemma count_pos {q : Stage → Bool} {logins : List Login} {i : ℕ} {s : Login}
    (hs : logins[i]? = some s) (hq : q s.stage = true) : 0 < count q logins s.user := by
  rw [count, List.countP_pos_iff]
  exact ⟨s, List.mem_of_getElem? hs, by simp [hq]⟩

lemma count_underWay (logins : List Login) (user : Bytes) :
    count Stage.underWay logins user = count Stage.unrecorded logins user + count
    (· = .allowed) logins user := by
  induction logins with
  | nil => rfl
  | cons s logins ih =>
    simp only [count_cons, ih]
    by_cases hu : s.user = user
    · simp only [if_pos hu]
      cases s.stage <;> simp [Stage.underWay, Stage.unrecorded] <;> omega
    · simp [hu]

lemma unrecorded_lt {logins : List Login} {i : ℕ} {s : Login} (hs : logins[i]? = some s)
    (hw : s.stage = .allowed) :
    count Stage.unrecorded logins s.user < count Stage.underWay logins s.user := by
  have := count_pos (q := (· = .allowed)) hs (by simp [hw])
  rw [count_underWay]
  omega

lemma Steady.check (h : Steady r) {i : ℕ} {s x : Login} (hs : r.logins[i]? = some s)
    (hw : s.stage = .allowed) (hx : x = { s with stage := .checked false }) :
    Steady { r with logins := r.logins.set i x, trace := r.trace ++
      [.checked s.user r.clock] } := by
  have hxu : x.user = s.user := by rw [hx]
  have hxs : x.stage = .checked false := by rw [hx]
  have hcount := fun (q : Stage → Bool) => count_set (q := q) hs hxu
  have hlt := unrecorded_lt hs hw
  refine ⟨?_, fun user => ?_, fun user => ?_, failed_set h.failed (by simp [hxs]), fun user => ?_⟩
  · simpa using h.tracks
  · have hset := hcount Stage.underWay user
    simp only [hw, hxs, Stage.underWay, Bool.toNat_true] at hset
    have := h.room user
    simp only [recordsIn_checked]
    omega
  · have hset := hcount Stage.unrecorded user
    simp only [hw, hxs, Stage.unrecorded, Bool.toNat_false, Bool.toNat_true, ite_self] at hset
    have := h.checks user
    simp only [recordsIn_checked, checksIn_checked]
    omega
  · refine (h.guarded user).checked ?_ ?_
    · rintro rfl
      have := h.checks s.user
      have := h.room s.user
      omega
    · rintro rfl
      rw [← lockedOut_iff]
      intro hlock
      have := h.room s.user
      have := count_pos (q := Stage.underWay) hs (by simp [hw, Stage.underWay])
      unfold LockedOut at hlock
      omega

lemma Steady.record (h : Steady r) {i : ℕ} {s x : Login} (hs : r.logins[i]? = some s)
    (hw : s.stage = .checked false) (hx : x = { s with stage := .done }) :
    Steady { r with
      logins := r.logins.set i x
      authFailures := r.authFailures.recordAuthResult r.clock s.user false
      trace := r.trace ++ [.recorded ⟨s.user, r.clock, false⟩] } := by
  have hxu : x.user = s.user := by rw [hx]
  have hxs : x.stage = .done := by rw [hx]
  have hcount := fun (q : Stage → Bool) => count_set (q := q) hs hxu
  have hpos := count_pos (q := Stage.underWay) hs (by simp [hw, Stage.underWay])
  have hfail := failureTimes_recorded r.trace ⟨s.user, r.clock, false⟩
  simp only [Bool.false_eq_true, if_false] at hfail
  have hlock : ¬ LockedOut (failureTimes (recordsIn r.trace s.user)) r.clock := by
    intro hlock
    have := h.room s.user
    unfold LockedOut at hlock
    omega
  refine ⟨?_, fun user => ?_, fun user => ?_, failed_set h.failed (by simp [hxs]),
    fun user => (h.guarded user).recorded _⟩
  · change FailureTable.Tracks _ (fun user => failureTimes (recordsIn (r.trace ++ [_]) user)) _
    rw [hfail]
    exact h.tracks.failure s.user hlock
  · have hset := hcount Stage.underWay user
    simp only [hw, hxs, Stage.underWay, Bool.toNat_true, Bool.toNat_false, ite_self] at hset
    have := h.room user
    have hnew := congrFun hfail user
    dsimp only at hnew ⊢
    rw [hnew, Function.update_apply]
    by_cases hu : s.user = user
    · subst hu
      rw [if_pos rfl] at hset
      rw [if_pos rfl, streak, if_pos (by unfold AUTH_LOCKOUT; omega)]
      omega
    · rw [if_neg hu] at hset
      rw [if_neg (Ne.symm hu)]
      omega
  · have hset := hcount Stage.unrecorded user
    simp only [hw, hxs, Stage.unrecorded, Bool.toNat_true, Bool.toNat_false, ite_self] at hset
    have := h.checks user
    simp only [recordsIn_recorded, checksIn_recorded]
    by_cases hu : s.user = user
    · rw [if_pos hu] at hset ⊢
      rw [List.length_append, List.length_singleton]
      omega
    · rw [if_neg hu] at hset ⊢
      omega

lemma Steady.step (h : Steady r) (hwrong : wrong sha256 r e = true) (hspare : spare r e = true) :
    Steady (r.step sha256 e) := by
  have hlater := h.later e.elapsed
  rcases step_cases sha256 r e
    with he | ⟨s, ha, hs, hw, he⟩ | ⟨s, users, ha, hs, hw, he⟩ | ⟨s, success, hs, hw, he⟩
  · rw [he]
    exact hlater
  · rw [he]
    refine hlater.allow hs hw (fun hallow => ?_) rfl
    simpa [spare, ha, hs, hw, hallow] using hspare
  · have hnone : users.authenticate sha256 s.user s.token =
        none := by simpa [wrong, ha, hs, hw] using hwrong
    rw [he, hnone]
    exact hlater.check hs hw rfl
  · have hfalse : success = false := by
      cases success with
      | false => rfl
      | true => exact absurd hw (h.failed s (List.mem_of_getElem? hs))
    subst hfalse
    rw [he]
    exact hlater.record hs hw rfl

lemma count_waiting {q : Stage → Bool} (hq : q .waiting = false) {logins : List Login}
    (hstart : ∀ s ∈ logins, s.stage = .waiting) (user : Bytes) : count q logins user = 0 := by
  rw [count, List.countP_eq_zero]
  intro s hs
  simp [hstart s hs, hq]

lemma Steady.start {logins : List Login} (hstart : ∀ s ∈ logins, s.stage = .waiting) (clock : ℕ) :
    Steady { logins := logins, clock := clock } where
  tracks := .empty clock
  room user := by
    rw [count_waiting rfl hstart]
    exact Nat.zero_le _
  checks user := by
    rw [count_waiting rfl hstart]
    rfl
  failed s hs := by simp [hstart s hs]
  guarded user := ⟨by simp, by simp⟩

lemma Steady.run (h : Steady r) (hwrong : along sha256 (wrong sha256) r es = true)
    (hspare : along sha256 spare r es = true) : Steady (r.run sha256 es) := by
  induction es generalizing r with
  | nil => exact h
  | cons e es ih =>
    simp only [along, Bool.and_eq_true] at hwrong hspare
    exact ih (h.step hwrong.1 hspare.1) hwrong.2 hspare.2

/-- Whatever the order of their actions, sessions with wrong tokens keep to the lockout as long as
none is let through by `authAllowed` while five failures count or are still under way. -/
theorem run_guarded (sha256 : Bytes → Bytes) (logins : List Login) (clock : ℕ) (es : List Step)
    (hstart : ∀ s ∈ logins, s.stage = .waiting)
    (hwrong : along sha256 (wrong sha256) { logins := logins, clock := clock } es = true)
    (hspare : along sha256 spare { logins := logins, clock := clock } es = true) (user : Bytes) :
    Guarded (run sha256 { logins := logins, clock := clock } es).trace user :=
  ((Steady.start hstart clock).run hwrong hspare).guarded user

theorem run_alone {i : ℕ} {s : Login} (hs : r.logins[i]? = some s) (hw : s.stage = .waiting)
    (users : Users) (elapsed delay : ℕ) (log : List AuthRecord) :
    (r.run sha256 [⟨i, .authAllowed, elapsed⟩, ⟨i, .authenticate users, delay⟩,
      ⟨i, .recordAuthResult, 0⟩]).authFailures =
      (Lockouts.attempt FailureTable.recordAuthResult sha256 ⟨r.authFailures, log⟩
        ⟨s.user, s.token, users, r.clock + elapsed, delay⟩).authFailures := by
  obtain ⟨user, token, stage⟩ := s
  obtain rfl : stage = .waiting := hw
  have hset : ∀ x, (r.logins.set i x)[i]? = some x := fun x =>
    List.getElem?_set_self (List.getElem?_eq_some_iff.mp hs).1
  cases hb : r.authFailures.authAllowed (r.clock + elapsed) user with
  | false => simp [run, step, Lockouts.attempt, hs, hset, hb]
  | true => simp [run, step, Lockouts.attempt, Attempt.succeeds, hs, hset, hb, List.set_set]

def sixLogins : List Login := List.replicate 6 ⟨ascii "bob", ascii "x", .waiting⟩

def each (action : Action) (n : ℕ) : List Step := (List.range n).map fun i => ⟨i, action, 1⟩

def together : List Step := each .authAllowed 6 ++ each (.authenticate ∅) 6

/-- The last one is let through before the first result is recorded, and compared after the
fifth. -/
def overtaken : List Step :=
  each .authAllowed 6 ++ each (.authenticate ∅) 5 ++ each .recordAuthResult 5 ++
  [⟨5, .authenticate ∅, 1⟩]

def inTurn : List Step :=
  (List.range 6).flatMap fun i => [⟨i, .authAllowed, 1⟩, ⟨i, .authenticate ∅, 1⟩,
    ⟨i, .recordAuthResult, 1⟩]

theorem inTurn_guarded :
    (∀ s ∈ sixLogins, s.stage = .waiting) ∧ along id (wrong id) { logins := sixLogins } inTurn =
      true ∧ along id spare { logins := sixLogins } inTurn = true ∧
      Guarded (run id { logins := sixLogins } inTurn).trace (ascii "bob") := by
  have hstart : ∀ s ∈ sixLogins, s.stage = .waiting := by decide
  have hwrong : along id (wrong id) { logins := sixLogins } inTurn = true := by decide +kernel
  have hspare : along id spare { logins := sixLogins } inTurn = true := by decide +kernel
  exact ⟨hstart, hwrong, hspare,
    run_guarded id sixLogins 0 inTurn hstart hwrong hspare (ascii "bob")⟩

/-- Six tokens are compared before the first failure is recorded, and another run compares a token
just after the fifth is. -/
theorem sixLogins_not_guarded :
    (∀ s ∈ sixLogins, s.stage = .waiting) ∧
      (along id (wrong id) { logins := sixLogins } together = true ∧
        checksIn (run id { logins := sixLogins } together).trace (ascii "bob") = 6 ∧
        recordsIn (run id { logins := sixLogins } together).trace (ascii "bob") = [] ∧
        ¬ Guarded (run id { logins := sixLogins } together).trace (ascii "bob")) ∧
      along id (wrong id) { logins := sixLogins } overtaken = true ∧
      ∃ before t, (run id { logins := sixLogins } overtaken).trace =
        before ++ [.checked (ascii "bob") t] ∧
        EndsInFailures (recordsIn before (ascii "bob")) t := by
  refine ⟨by decide, ⟨by decide +kernel, by decide +kernel, by decide +kernel,
    fun h => ?_⟩, by decide +kernel,
    (run id { logins := sixLogins } overtaken).trace.dropLast, 17, by decide +kernel, ?_⟩
  · have hfew := h.few (run id { logins := sixLogins } together).trace.dropLast 12 []
      (by decide +kernel)
    revert hfew
    decide +kernel
  · rw [← lockedOut_iff]
    decide +kernel

end Race

end Zest
