import ZestDB.Database.Defs

/-! `Server.cpp`: a session, from the payload it reads to the reply it queues, and the part of
`ZestDB.cpp` that authenticates it. -/

namespace Zest

open Foundations

namespace Messages

def MALFORMED_BATCH := ascii "Batch format not correct !"
def AUTH_SUCCESS := ascii "Successfuly authenticated !"
def AUTH_FAILED := ascii "Authentication failed !"
def SESSION_REVOKED := ascii "Session revoked: the user no longer exists !"
def INTERNAL_ERROR := ascii "Internal error while executing the command !"

end Messages

def dumpString (pf : Platform) (str : Bytes) : Bytes := ascii "\"" ++ pf.escape str ++ ascii "\""

def looksLikeJson (response : Bytes) : Bool := response.head? = some 91 || response.head? = some 123

def responseToJson (pf : Platform) (resp : ResultType) : Bytes :=
  ascii "\x7b\"affectedRows\":" ++ ascii (toString resp.affectedRows) ++
    ascii ",\"code\":" ++ (if resp.code = .Success then ascii "0" else ascii "1") ++
    ascii ",\"response\":" ++ (if looksLikeJson resp.response && pf.accept resp.response then
      resp.response else dumpString pf resp.response) ++ ascii "\x7d"

structure AuthFailures where
  failures : ℕ
  expires : ℕ
deriving DecidableEq, Repr

abbrev FailureTable := AList fun _ : Bytes => AuthFailures

def MAX_AUTH_FAILURES : ℕ := 5

def AUTH_LOCKOUT : ℕ := 60 * 10 ^ 9

namespace FailureTable

def authAllowed (table : FailureTable) (now : ℕ) (username : Bytes) : Bool :=
  match table.lookup username with
  | none => true
  | some entry => entry.failures < MAX_AUTH_FAILURES || entry.expires ≤ now

def eraseExpired (table : FailureTable) (now : ℕ) : FailureTable :=
  ⟨table.entries.filter fun e => now < e.2.expires, table.nodupKeys.sublist List.filter_sublist⟩

def recordFailure (table : FailureTable) (now : ℕ) (username : Bytes) : FailureTable :=
  let table := if table.entries.length > 10000 then table.eraseExpired now else table
  let entry := (table.lookup username).getD ⟨0, 0⟩
  let failures := if entry.expires ≤ now then 0 else entry.failures
  table.insert username ⟨(failures + 1) % 2 ^ 32, now + AUTH_LOCKOUT⟩

def recordAuthResult (table : FailureTable) (now : ℕ) (username : Bytes) (success : Bool) :
    FailureTable :=
  if success then table.erase username else table.recordFailure now username

end FailureTable

def Users.authenticate (users : Users) (sha256 : Bytes → Bytes) (username token : Bytes) :
    Option Role :=
  match users.lookup username with
  | none => none
  | some entry => if sha256 token = entry.tokenHash then some entry.role else none

def Users.roleOf (users : Users) (username : Bytes) : Option Role :=
  (users.lookup username).map UserEntry.role

structure Host (n : ℕ) where
  db : ZestDB n
  authFailures : FailureTable

def MAX_UNAUTHENTICATED_PAYLOAD_SIZE : ℕ := 1024 * 1024

def MAX_PAYLOAD_SIZE : ℕ := 64 * 1024 * 1024

structure Session where
  authenticated : Bool := false
  username : Bytes := []
deriving DecidableEq, Repr

/-- The time of a command, the time its handshake takes, and what it leaves open. -/
structure Moment (n : ℕ) where
  now : ℕ := 0
  delay : ℕ := 0
  choices : Choices n := {}
  archived : Bool := true
  rewritten : TypedConfig := default

/-- What `handle_command` returns and leaves; `executed` is the command `execCmd` was called with,
and the role. -/
structure Handled (n : ℕ) where
  result : ResultType
  shouldClose : Bool
  session : Session
  host : Host n
  executed : Option (Bytes × Role) := none

def AUTH_PREFIX : Bytes := ascii "Authorization: "

/-- The user name and the token of `Authorization: user.token`. -/
def credentials (cmd : Bytes) : Option (Bytes × Bytes) :=
  let rest := cmd.drop AUTH_PREFIX.length
  if cmd.take AUTH_PREFIX.length ≠ AUTH_PREFIX ∨ 46 ∉ rest then none
  else some (rest.takeWhile (· ≠ 46), (rest.dropWhile (· ≠ 46)).drop 1)

namespace Session

open ZestDB (failure success)

variable {n : ℕ}

def handshake (sha256 : Bytes → Bytes) (m : Moment n) (cmd : Bytes) (session : Session)
    (host : Host n) : Handled n :=
  let refused : Handled n := ⟨failure Messages.AUTH_FAILED, true, session, host, none⟩
  match credentials cmd with
  | none => refused
  | some (username, token) =>
    if !host.authFailures.authAllowed m.now username then refused
    else
      match host.db.users.authenticate sha256 username token with
      | none =>
        { refused with
          host := { host with authFailures :=
            host.authFailures.recordAuthResult (m.now + m.delay) username false } }
      | some _ =>
        ⟨success Messages.AUTH_SUCCESS, false, ⟨true, username⟩, { host with
            authFailures :=
              host.authFailures.recordAuthResult (m.now + m.delay) username true }, none⟩

variable [NeZero n]

def handleCommand (pf : Platform) (sha256 : Bytes → Bytes) (m : Moment n) (cmd : Bytes)
    (session : Session) (host : Host n) : Handled n :=
  if !session.authenticated then session.handshake sha256 m cmd host
  else
    match host.db.users.roleOf session.username with
    | none => ⟨failure Messages.SESSION_REVOKED, true, session, host, none⟩
    | some role =>
      let call : Call n := ⟨cmd, role, false, m.choices, m.archived, m.rewritten⟩
      let out := ZestDB.execCmd pf call host.db
      ⟨out.val.getD (failure Messages.INTERNAL_ERROR), false, session,
        { host with db := out.final }, some (cmd, role)⟩

end Session

/-- The loop of `do_read_command` over the commands of a payload. -/
structure Batch where
  offset : ℕ := 0
  finalResult : Bytes := []
  shouldClose : Bool := false
deriving DecidableEq, Repr

inductive Turn where
  | done
  | malformed
  | command (cmd : Bytes) (offset : ℕ)
deriving DecidableEq, Repr

def SEPARATOR : Bytes := [13, 10, 13, 10]

def ntohl (bytes : Bytes) : ℕ := leValue bytes.reverse

def htonl (x : ℕ) : Bytes := (leBytes 4 x).reverse

def payloadOf (cmds : List Bytes) : Bytes := cmds.flatMap fun cmd => htonl cmd.length ++ cmd

namespace Batch

def turn (payload : Bytes) (b : Batch) : Turn :=
  if b.offset < payload.length ∧ b.shouldClose = false then
    let start := (b.offset + 4) % 2 ^ 32
    if start > payload.length then .malformed
    else
      let cmdSize := ntohl ((payload.drop b.offset).take 4)
      let next := (start + cmdSize) % 2 ^ 32
      if next > payload.length then
        .malformed else .command ((payload.drop start).take cmdSize) next
  else .done

def answered (b : Batch) (pf : Platform) (result : ResultType) : Bytes :=
  (if b.finalResult = [] then [] else b.finalResult ++ SEPARATOR) ++ responseToJson pf result

def reply (b : Batch) (pf : Platform) (payload : Bytes) : Bytes :=
  (if b.turn payload = .malformed then
    b.answered pf (ZestDB.failure Messages.MALFORMED_BATCH) else b.finalResult) ++ [10]

def next {n : ℕ} (b : Batch) (pf : Platform) (offset : ℕ) (h : Handled n) : Batch :=
  ⟨offset, b.answered pf h.result, h.shouldClose⟩

end Batch

end Zest
