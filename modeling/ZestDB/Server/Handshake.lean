import ZestDB.Server.Authentication
import ZestDB.Server.Reply

/-! The handshake as a client begins it: one framed command with its name and token. -/

namespace Zest

open Foundations

def authorization (user token : Bytes) : Bytes := AUTH_PREFIX ++ (user ++ 46 :: token)

lemma credentials_authorization (user token : Bytes) :
    credentials (authorization user token) =
      some (user.takeWhile (· ≠ 46), ((user ++ 46 :: token).dropWhile (· ≠ 46)).drop 1) := by
  have htake : (authorization user token).take AUTH_PREFIX.length = AUTH_PREFIX :=
    List.take_left' rfl
  have hdrop : (authorization user token).drop AUTH_PREFIX.length = user ++ 46 :: token :=
    List.drop_left' rfl
  have hdot : ¬ (AUTH_PREFIX ≠ AUTH_PREFIX ∨ 46 ∉ user ++ 46 :: token) := by simp
  have hname : (user ++ 46 :: token).takeWhile (· ≠ 46) = user.takeWhile (· ≠ 46) := by
    rw [List.takeWhile_append]
    split_ifs with hall
    · rw [List.takeWhile_cons_of_neg (by simp), List.append_nil,
        (List.takeWhile_prefix _).eq_of_length hall]
    · rfl
  simp only [credentials, htake, hdrop, if_neg hdot, hname]

lemma credentials_plain {user : Bytes} (token : Bytes) (h : 46 ∉ user) :
    credentials (authorization user token) = some (user, token) := by
  have hall : ∀ b ∈ user, decide (b ≠ 46) = true := by
    intro b hb
    exact decide_eq_true fun heq => h (heq ▸ hb)
  rw [credentials_authorization, List.takeWhile_eq_self_iff.mpr hall,
    List.dropWhile_append_of_pos hall,
    List.dropWhile_cons_of_neg (by simp), List.drop_one, List.tail_cons]

lemma receive_first (payload : Bytes) : ({} : Connection).receive payload =
    if payload.length ≤ MAX_UNAUTHENTICATED_PAYLOAD_SIZE then
      { batch := some (payload, {}) } else { closed := true } := by
  simp only [Connection.receive, Option.isSome_none, Bool.or_self, Bool.false_eq_true, if_false,
    gt_iff_lt]
  split_ifs with hlt hle hle
  · exact absurd hle (not_le.mpr hlt)
  · rfl
  · rfl
  · exact absurd (not_lt.mp hlt) hle

namespace Server

variable {n : ℕ} {i : ℕ} {e : Event n}

def Event.Of (i : ℕ) : Event n → Prop
  | .receive j _ => j = i
  | .turn j _ _ _ _ _ => j = i
  | .disconnect j => j = i
  | .edit _ => False
  | .reload => False

variable [NeZero n] {pf : Platform} {sha256 : Bytes → Bytes} {v : Server n}
  {es mid : List (Event n)} {user token : Bytes} {entry : UserEntry}

lemma step_other (h : ¬ e.Of i) : (v.step pf sha256 e).connections i = v.connections i := by
  cases e with
  | receive j payload =>
    exact (setConnection_connections _ _ _ _).trans (if_neg fun heq => h heq.symm)
  | turn j elapsed delay choices archived rewritten =>
    simp only [step]
    split
    · exact (setConnection_connections _ _ _ _).trans (if_neg fun heq => h heq.symm)
    · exact (setConnection_connections _ _ _ _).trans (if_neg fun heq => h heq.symm)
  | disconnect j => exact (setConnection_connections _ _ _ _).trans (if_neg fun heq => h heq.symm)
  | edit file => rfl
  | reload => rfl

lemma run_other (h : ∀ e ∈ mid, ¬ e.Of i) :
    (run pf sha256 v mid).connections i = v.connections i := by
  induction mid generalizing v with
  | nil => rfl
  | cons e mid ih =>
    change (run pf sha256 (v.step pf sha256 e) mid).connections i = _
    rw [ih fun e he => h e (by simp [he]), step_other (h e (by simp))]

lemma handled_session {cmd : Bytes} {elapsed delay : ℕ} {choices : Choices n} {archived : Bool}
    {rewritten : TypedConfig} (hsize : (payloadOf [cmd]).length ≤ MAX_UNAUTHENTICATED_PAYLOAD_SIZE)
    (hbatch : v.connections i = { batch := some (payloadOf [cmd], {}) }) :
    ((v.step pf sha256 (.turn i elapsed delay choices archived rewritten)).connections i).session =
      (({} : Session).handshake sha256 ⟨v.clock + elapsed, delay, choices, archived,
        rewritten⟩ cmd v.host).session := by
  have hmax : MAX_UNAUTHENTICATED_PAYLOAD_SIZE ≤ MAX_PAYLOAD_SIZE := by decide
  have hturn : (v.connections i).turn = .command cmd (payloadOf [cmd]).length := by
    rw [hbatch]
    exact turn_payloadOf [] [cmd] (b := {}) (hsize.trans hmax) rfl
  simp only [step, hturn, setConnection_connections, if_pos]
  rw [handle, hbatch]
  rfl

omit [NeZero n] in
/-- After `es`, session `i` has sent its name and token, and what other sessions did since is
`mid`. -/
def presented (es : List (Event n)) (i : ℕ) (user token : Bytes) (mid : List (Event n)) :
    List (Event n) :=
  es ++ .receive i (payloadOf [authorization user token]) :: mid

variable (user token) in
lemma presented_connection {db : ZestDB n} {clock : ℕ}
    (hopen : (run pf sha256 (fresh db clock) es).connections i = {}) (hmid : ∀ e ∈ mid, ¬ e.Of i) :
    (run pf sha256 (fresh db clock) (presented es i user token mid)).connections i =
      ({} : Connection).receive (payloadOf [authorization user token]) := by
  have hrun : run pf sha256 (fresh db clock) (presented es i user token mid) =
      run pf sha256 ((run pf sha256 (fresh db clock) es).step pf sha256
        (.receive i (payloadOf [authorization user token]))) mid := by
    simp [presented, run]
  rw [hrun, run_other hmid]
  change (setConnection _ _ _).connections i = _
  rw [setConnection_connections, if_pos rfl, hopen]

/-- A client that sends its name and token is authenticated under that name exactly when the name
has no dot and the payload is one of those that are let through. -/
theorem handshake_round_trip_iff (pf : Platform) (sha256 : Bytes → Bytes) (db : ZestDB n)
    (clock : ℕ)
    (es mid : List (Event n)) (i : ℕ) (user token : Bytes) (entry : UserEntry) (elapsed delay : ℕ)
    (choices : Choices n) (archived : Bool) (rewritten : TypedConfig)
    (hopen : (run pf sha256 (fresh db clock) es).connections i = {}) (hmid : ∀ e ∈ mid, ¬ e.Of i)
    (hentry : (run pf sha256 (fresh db clock) (presented es i user token mid)).host.db.users.lookup
      user = some entry) (htoken : sha256 token = entry.tokenHash) (hlock : ¬ LockedOut
      (failuresFrom pf sha256 (fresh db clock) (fun _ => []) (presented es i user token mid) user)
      ((run pf sha256 (fresh db clock) (presented es i user token mid)).clock + elapsed)) :
    ((run pf sha256 (fresh db clock) (presented es i user token mid ++
        [.turn i elapsed delay choices archived rewritten])).connections i).session = ⟨true, user⟩ ↔
      46 ∉ user ∧ (payloadOf [authorization user token]).length ≤
        MAX_UNAUTHENTICATED_PAYLOAD_SIZE := by
  have htracks := (tracks_run pf sha256 db clock (presented es i user token mid)).later
    (Nat.le_add_right _ elapsed)
  have hallow := (htracks.authAllowed_iff user).mpr hlock
  have hconn := presented_connection user token hopen hmid
  rw [receive_first] at hconn
  rw [run_concat]
  by_cases hsize : (payloadOf [authorization user token]).length ≤ MAX_UNAUTHENTICATED_PAYLOAD_SIZE
  · rw [if_pos hsize] at hconn
    rw [handled_session hsize hconn]
    by_cases hdot : 46 ∈ user
    · refine iff_of_false (fun hsession => ?_) fun h => h.1 hdot
      rcases handshake_cases (n := n) sha256 {} _ (authorization user token) _
        with ⟨hsame, -⟩ | ⟨name, _, _, -, hname, -, -, -, hsame⟩
      · cases hsame.symm.trans hsession
      · obtain ⟨-, rfl⟩ := Session.mk.inj (hsame.symm.trans hsession)
        exact hname hdot
    · refine iff_of_true ?_ ⟨hdot, hsize⟩
      simp only [Session.handshake, credentials_plain token hdot, hallow, Users.authenticate,
        hentry, htoken, if_pos]
      rfl
  · rw [if_neg hsize] at hconn
    have hturn : ({ closed := true } : Connection).turn = .done :=
      Connection.Closing.turn (.inl rfl)
    refine iff_of_false (fun hsession => ?_) fun h => hsize h.2
    simp only [step, hconn, hturn, setConnection_connections, if_pos] at hsession
    cases hsession

section Names

def hashOf00 : Bytes := ascii "f1534392279bddbf9d43dde8701cb5be14b82f76ec6607bf8d6ad557f60f304e"

def withUser (user : Bytes) : ConfigFile :=
  ⟨true, some {}, (∅ : Users).insert user ⟨hashOf00, .Write⟩, true⟩

def dbWithUser (user : Bytes) : ZestDB 1 :=
  ZestDB.construct (withUser user) {} {} {} fun _ => .empty

/-- A user `a.b` of an accepted `config.yaml`, not locked out and with the right token, is
refused. -/
theorem dottedName_refused :
    (loadConfig anyRegex (withUser (ascii "a.b"))).isSome = true ∧
      (dbWithUser (ascii "a.b")).users.lookup (ascii "a.b") = some ⟨hashOf00, .Write⟩ ∧
      ¬ LockedOut (failuresFrom anyRegex (fun _ => hashOf00) (fresh (dbWithUser (ascii "a.b")) 0)
        (fun _ => []) (presented [] 0 (ascii "a.b") (ascii "00") []) (ascii "a.b")) 0 ∧
      ((run anyRegex (fun _ => hashOf00) (fresh (dbWithUser (ascii "a.b")) 0)
        (presented [] 0 (ascii "a.b") (ascii "00") [] ++ [.turn 0 0 0 {} true default])).connections
          0).session = {} := by
  decide +kernel

theorem plainName_round_trip :
    ((run anyRegex (fun _ => hashOf00) (fresh (dbWithUser (ascii "alice")) 0)
      (presented [] 0 (ascii "alice") (ascii "00") [] ++ [.turn 0 0 0 {} true default])).connections
        0).session = ⟨true, ascii "alice"⟩ := by
  refine (handshake_round_trip_iff anyRegex (fun _ => hashOf00) (dbWithUser (ascii "alice")) 0 []
    [] 0 (ascii "alice")
    (ascii "00") ⟨hashOf00, .Write⟩ 0 0 {} true default rfl ?_ ?_ rfl ?_).mpr ?_
  · simp
  · decide +kernel
  · decide +kernel
  · decide +kernel

end Names

end Server

end Zest
