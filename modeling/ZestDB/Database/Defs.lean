import ZestDB.Database.Command
import ZestDB.Database.Config
import ZestDB.Manager.Writes

/-! `ZestDB.cpp`: the checks of the commands, their execution and their log, and the replay of the
log. -/

namespace Zest

open Foundations

structure ZestDB (n : ℕ) where
  settings : Settings
  users : Users
  replaying : Bool
  config : ConfigFile
  shardManager : ShardManager n

/-- A call of `execCmd`, with what it leaves open: whether an archive could be written, and what the
YAML library reads of `config.yaml` once it has written it. -/
structure Call (n : ℕ) where
  command : Bytes
  role : Role := .Admin
  syncWal : Bool := true
  choices : Choices n := {}
  archived : Bool := true
  rewritten : TypedConfig := default

namespace ZestDB

variable {n : ℕ}

def onManager {α : Type} (x : Traced (ShardManager n) α) : Traced (ZestDB n) α :=
  .zoom ZestDB.shardManager (fun sm db => { db with shardManager := sm }) x

def failure (message : Bytes) : ResultType := ⟨.Error, message, 0⟩

def success (message : Bytes) : ResultType := ⟨.Success, message, 0⟩

def validateKey (settings : Settings) (key : Key) : Bool := key.length ≤ settings.MaxKeySize

def validateValue (settings : Settings) (value : Value) : Bool :=
  value.length ≤ settings.MaxValueSize

/-- The checks of `set`, `del`, `setBy` and `delBy`: the text of the first that fails. -/
def refusal (pf : Platform) (settings : Settings) (enforce : Bool) : Write → Option Bytes
  | .set key value =>
    if enforce && settings.readOnly then some Messages.READ_ONLY_ERROR
    else if enforce && !validateKey settings key then some Messages.INVALID_KEY
    else if value = [] then some Messages.VALUE_EMPTY
    else if enforce && !validateValue settings value then some Messages.INVALID_VALUE
    else if enforce && settings.jsonOnly && !pf.accept value then some Messages.JSON_ONLY_ERROR
    else none
  | .del key =>
    if enforce && settings.readOnly then some Messages.READ_ONLY_ERROR
    else if enforce && !validateKey settings key then some Messages.INVALID_KEY
    else none
  | .setBy _ value =>
    if enforce && settings.readOnly then some Messages.READ_ONLY_ERROR
    else if value = [] then some Messages.VALUE_EMPTY
    else if enforce && !validateValue settings value then some Messages.INVALID_VALUE
    else if enforce && settings.jsonOnly && !pf.accept value then some Messages.JSON_ONLY_ERROR
    else none
  | .delBy _ => if enforce && settings.readOnly then some Messages.READ_ONLY_ERROR else none

def get [NeZero n] (pf : Platform) (key : Key) : Traced (ZestDB n) ResultType := do
  let db ← .get
  if !validateKey db.settings key then pure (failure Messages.INVALID_KEY)
  else do
    .step fun db => { db with shardManager := (db.shardManager.get pf key).2 }
    pure (db.shardManager.get pf key).1

def write [NeZero n] (pf : Platform) (ch : Choices n) (w : Write) :
    Traced (ZestDB n) ResultType := do
  let db ← .get
  match refusal pf db.settings (!db.replaying) w with
  | some message => pure (failure message)
  | none => onManager (ShardManager.write pf ch w)

def log [NeZero n] (pf : Platform) (key command : Bytes) (syncWal : Bool) :
    Traced (ZestDB n) Unit := do
  onManager (ShardManager.appendToWAL pf key command)
  if syncWal then do
    let _ ← onManager ShardManager.syncWAL
    pure ()
  else pure ()

def writeAndLog [NeZero n] (pf : Platform) (c : Call n) (key : Bytes) (w : Write) :
    Traced (ZestDB n) ResultType := do
  let r ← write pf c.choices w
  let db ← .get
  if !db.replaying && r.code = .Success then do
    log pf key c.command c.syncWal
    pure r
  else pure r

def flush (ch : Choices n) : Traced (ZestDB n) Unit := do
  let _ ← onManager (ShardManager.flush ch)
  pure ()

def reloadShards (settings : Settings) : Traced (ZestDB n) Unit := do
  let _ ← onManager (ShardManager.reloadSettings settings)
  pure ()

def reloadConfig (pf : Platform) : Traced (ZestDB n) ResultType := do
  let db ← .get
  match reloadedSettings pf db.config db.settings with
  | .error message => pure (failure message)
  | .ok settings => do
    .step fun db => { db with settings := settings, users := db.config.users }
    reloadShards settings
    pure (success (ascii "Reload successful !"))

/-- `scfg`; `none` when the YAML library throws in `setConfig`, with the new settings already in
place. The library need not read back what it writes: it writes a text such as `[0-9]` without
quotes. -/
def scfg (pf : Platform) (rewritten : TypedConfig) (param value : Bytes) : Traced (ZestDB n)
    (Option ResultType) := do
  let db ← .get
  match setParam pf db.settings param value with
  | .error message => pure (some (failure message))
  | .ok settings => do
    .step fun db => { db with settings := settings }
    if db.config.mapping then do
      .step fun db => { db with config := rewritten }
      reloadShards settings
      pure (some (success Messages.UPDATE_SUCCESSFUL))
    else pure none

def help : Bytes := ascii (
  "ZestDB Commands:\n---------------\n" ++
  "get <key>                              - Get value by key\n" ++
  "set <key> <value>                      - Set key-value pair\n" ++
  "del <key>                              - Delete key\n" ++
  "getby <mode> <pattern> [lim <n>]       - Get keys matching pattern\n" ++
  "setby <mode> <pattern> <val> [lim <n>] - Set value for keys matching pattern\n" ++
  "delby <mode> <pattern> [lim <n>]       - Delete keys matching pattern\n" ++
  "flush                                  - Flush all data in memory to the disk\n" ++
  "reload                                 - Reload configuration from config.yaml\n" ++
  "scfg <param> <value>                   - Set config parameter\n" ++
  "help                                   - Show this help\n\n" ++
  "Config Parameters:\n" ++
  "  SegSize(int), MaxKeySize(int), MaxValueSize(int), CacheSize(int), CompactingInterval(int), " ++
  "FlushInterval(int), isDebug(bool), jsonOnly(bool), readOnly(bool), NetworkValidationStr(string), " ++
  "ArchiveCreationDelay(int), AutoArchiveSaving(bool)\n\n" ++
  "Modes:\n  re  - regex\n  sw  - starts with\n  ct  - contains\n  ew  - ends with\n  lim - limit (optional)\n\n" ++
  "Examples:\n" ++
  "  gb re .* lim 10                      - Get keys matching regex '.*' with limit 10\n" ++
  "  gb sw ca lim 20                      - Get keys starting with 'ca' with limit 20\n" ++
  "  gb ct ac lim 1                       - Get keys containing 'ac' with limit 1\n" ++
  "  gb ew ca                             - Get keys ending with 'ca' (no limit)\n\n" ++
  "Shortcuts: g=get, s=set, d=del, gb=getby, sb=setby, db=delby, f=flush, r=reload, scfg=setconfig, h=help\n")

def serve [NeZero n] (pf : Platform) (c : Call n) (key : Bytes) : Request → Traced (ZestDB n)
    (Option ResultType)
  | .get k => some <$> get pf k
  | .getBy valid => do
    let db ← .get
    pure (some (db.shardManager.getBy pf c.choices valid))
  | .write w => some <$> writeAndLog pf c key w
  | .help => pure (some (success help))
  | .flush => do
    flush c.choices
    pure (some (success Messages.FLUSH_SUCCESSFUL))
  | .reload => some <$> reloadConfig pf
  | .scfg param value => scfg pf c.rewritten param value
  | .gcfg => do
    let db ← .get
    pure (some (success (getConfig pf db.settings)))
  | .save => do
    flush c.choices
    pure (some (if c.archived then success (ascii "Archive successfully created.")
      else failure (ascii "Failed to create the archive")))

def execCmd [NeZero n] (pf : Platform) (c : Call n) : Traced (ZestDB n) (Option ResultType) :=
  match words c.command with
  | [] => pure (some (failure Messages.NO_COMMAND_GIVEN))
  | name :: args =>
    if (verbOf name.text).denied c.role then pure (some (failure Messages.PERMISSION_DENIED))
    else
      match request pf (verbOf name.text) args with
      | .error message => pure (some (failure message))
      | .ok req => serve pf c ((args.head?.map Word.text).getD []) req

/-- The commands of the records, one after the other; `ch` is what each leaves open. -/
def replayEntries [NeZero n] (pf : Platform) (ch : ℕ → Choices n) : List WalEntry → ℕ →
    Traced (ZestDB n) Unit
  | [], _ => pure ()
  | entry :: entries, i => do
    let _ ← execCmd pf { command := entry.cmd, choices := ch i }
    replayEntries pf ch entries (i + 1)

def replayAllWAL [NeZero n] (pf : Platform) (ch : ℕ → Choices n) : Traced (ZestDB n) Unit := do
  let db ← .get
  onManager (.step (ShardManager.advanceAll db.shardManager.walEntries))
  replayEntries pf ch db.shardManager.walEntries 0
  flush (ch db.shardManager.walEntries.length)

def replayWAL [NeZero n] (pf : Platform) (ch : ℕ → Choices n) : Traced (ZestDB n) Unit := do
  .step fun db => { db with replaying := true }
  replayAllWAL pf ch
  .step fun db => { db with replaying := false }

def construct (config : ConfigFile) (settings : Settings) (ch fill : Choices n)
    (disks : Fin n → Shard.Disk) : ZestDB n where
  settings := settings
  users := config.users
  replaying := false
  config := config
  shardManager := ShardManager.create settings ch fill disks

end ZestDB

end Zest
