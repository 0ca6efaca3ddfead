import ZestDB.Database.Rule
import ZestDB.IndexEntry
import Mathlib.Data.List.AList

/-! `config.yaml`, and the commands `scfg`, `gcfg` and `reload` that change or show the settings. -/

namespace Zest

structure Settings.Typed (s : Settings) : Prop where
  SegSize : s.SegSize < 2 ^ 64
  MaxKeySize : s.MaxKeySize < 2 ^ 32
  MaxValueSize : s.MaxValueSize < 2 ^ 32

/-- What `config.yaml` says of a user; the token hash is there, or made from the password. -/
structure UserEntry where
  tokenHash : Bytes
  role : Role
deriving DecidableEq, Repr

abbrev Users := AList fun _ : Bytes => UserEntry

/-- `config.yaml` as the YAML library reads it. `mapping` is false when the library refuses the text
and when it is a scalar or a sequence, which has no values but their defaults; `values` is `none`
when the library refuses the text or a value has another type; `usersRead` is false when a user has
no name or an unknown role. -/
structure ConfigFile where
  mapping : Bool
  values : Option Settings
  users : Users := ∅
  usersRead : Bool := true

def ConfigFile.Typed (file : ConfigFile) : Prop := ∀ s ∈ file.values, s.Typed

abbrev TypedConfig := {file : ConfigFile // file.Typed}

def ConfigFile.defaults : ConfigFile := { mapping := true, values := some {} }

lemma ConfigFile.defaults_typed : ConfigFile.defaults.Typed := by
  intro s hs
  obtain rfl : {} = s := by simpa [ConfigFile.defaults] using hs
  exact ⟨by decide, by decide, by decide⟩

instance : Inhabited TypedConfig := ⟨.defaults, ConfigFile.defaults_typed⟩

def ConfigFile.read (file : ConfigFile) : Option Settings :=
  if file.usersRead then
    file.values.map fun s =>
      { s with
        IndexPath := []
        WalPath := []
        NetworkValidationStr := if s.NetworkValidationStr = [] then
          ascii ".*" else s.NetworkValidationStr }
  else none

def clampKeySize (s : Settings) : Settings := { s with MaxKeySize := min s.MaxKeySize MAX_KEY_SIZE }

def checkConfig (pf : Platform) (s : Settings) : Option Settings :=
  if s.DBPort < 1 ∨ s.DBPort > 65535 ∨ s.WebPort < 1 ∨ s.WebPort > 65535 then none
  else if s.useSSL ∧ (s.SSLCertPath = [] ∨ s.SSLKeyPath = []) then none
  else if pf.regex s.NetworkValidationStr |>.isNone then none
  else if s.MaxValueSize ≥ s.SegSize then none
  else if s.FlushInterval = 0 ∨ s.CompactingInterval = 0 ∨ s.ArchiveCreationDelay = 0 ∨
    s.AuthTimeout = 0 ∨ s.IdleTimeout = 0 ∨ s.MaxConnections = 0 then none
  else if s.DBPort = s.WebPort then none
  else some (clampKeySize s)

def loadConfig (pf : Platform) (file : ConfigFile) : Option Settings :=
  file.read.bind (checkConfig pf)

def reloadedSettings (pf : Platform) (file : ConfigFile) (old : Settings) : Except Bytes Settings :=
  match loadConfig pf file with
  | none => .error (ascii "Reload failed !")
  | some s =>
    if s.DbPath ≠ old.DbPath ∨ s.ArchiveStoragePath ≠ old.ArchiveStoragePath ∨
      s.IndexPath ≠ old.IndexPath ∨ s.WalPath ≠ old.WalPath ∨ s.SSLCertPath ≠ old.SSLCertPath ∨
          s.SSLKeyPath ≠ old.SSLKeyPath then
      .error (ascii ("Cannot change path settings during hot-reload. Paths are " ++
        "immutable. Restart the database to apply changes."))
    else if s.useSSL ≠ old.useSSL ∨ s.DBPort ≠ old.DBPort ∨ s.WebPort ≠ old.WebPort ∨
        s.MaxConnections ≠ old.MaxConnections ∨ s.AuthTimeout ≠ old.AuthTimeout ∨
          s.IdleTimeout ≠ old.IdleTimeout then
      .error (ascii ("Cannot change the ports, SSL or connection limits during hot-reload. " ++
        "Restart the database to apply changes."))
    else .ok s

/-- What `scfg` does with the value of one parameter: the new settings, or the text of the error. -/
abbrev Setter := Settings → Bytes → Except Bytes Settings

def setSeconds (name : String) (put : Settings → ℕ → Settings) : Setter := fun settings value =>
  match parseUInt (2 ^ 32) value with
  | none => .error (ascii ("Invalid " ++ name ++ " value (at least 1 second)"))
  | some 0 => .error (ascii ("Invalid " ++ name ++ " value (at least 1 second)"))
  | some v => .ok (put settings v)

def setFlag (name : String) (put : Settings → Bool → Settings) : Setter := fun settings value =>
  if value = ascii "true" ∨ value = ascii "1" then .ok (put settings true)
  else if value = ascii "false" ∨ value = ascii "0" then .ok (put settings false)
  else .error (ascii ("Invalid " ++ name ++ " value (use true/false or 0/1)"))

def setSegSize : Setter := fun settings value =>
  match parseUInt (2 ^ 64) value with
  | none => .error (ascii "Invalid SegSize value")
  | some v =>
    if v ≤ settings.MaxValueSize then .error (ascii "SegSize must be greater than MaxValueSize")
    else .ok { settings with SegSize := v }

def setMaxKeySize : Setter := fun settings value =>
  match parseUInt (2 ^ 32) value with
  | none => .error (ascii "Invalid MaxKeySize value")
  | some v =>
    if v > MAX_KEY_SIZE then .error (ascii s!"MaxKeySize cannot exceed {MAX_KEY_SIZE}")
    else .ok { settings with MaxKeySize := v }

def setMaxValueSize : Setter := fun settings value =>
  match parseUInt (2 ^ 32) value with
  | none => .error (ascii "Invalid MaxValueSize value")
  | some v =>
    if v ≥ settings.SegSize then .error (ascii "MaxValueSize must be less than SegSize")
    else .ok { settings with MaxValueSize := v }

def setCacheSize : Setter := fun settings value =>
  match parseUInt (2 ^ 32) value with
  | none => .error (ascii "Invalid CacheSize value")
  | some v => .ok { settings with CacheSize := v }

def setNetworkValidation (pf : Platform) : Setter := fun settings value =>
  match pf.regex value with
  | none => .error (ascii "Invalid regex: " ++ pf.regexError value)
  | some _ => .ok { settings with NetworkValidationStr := value }

def params (pf : Platform) : List (String × Setter) :=
  [("segsize", setSegSize), ("maxkeysize", setMaxKeySize), ("maxvaluesize", setMaxValueSize),
    ("cachesize", setCacheSize), ("compactinginterval",
      setSeconds "CompactingInterval" fun s v => { s with CompactingInterval := v }),
    ("flushinterval", setSeconds "FlushInterval" fun s v => { s with FlushInterval := v }),
    ("networkvalidationstr", setNetworkValidation pf),
    ("isdebug", setFlag "isDebug" fun s v => { s with isDebug := v }), ("usessl", fun _ _ =>
      .error (ascii "useSSL cannot be changed at runtime: edit config.yaml and restart")),
    ("jsononly", setFlag "jsonOnly" fun s v => { s with jsonOnly := v }),
    ("readonly", setFlag "readOnly" fun s v => { s with readOnly := v }), ("archivecreationdelay",
      setSeconds "ArchiveCreationDelay" fun s v => { s with ArchiveCreationDelay := v }),
    ("autoarchivesaving", setFlag "AutoArchiveSaving" fun s v => { s with AutoArchiveSaving := v })]

def setParam (pf : Platform) (settings : Settings) (param value : Bytes) : Except Bytes Settings :=
  match (params pf).find? fun p => ascii p.1 = param with
  | some p => p.2 settings value
  | none => .error (ascii "Unknown parameter: " ++ param)

/-- What `getConfig` shows: the members of the object in the order of their names. -/
def getConfig (pf : Platform) (s : Settings) : Bytes :=
  let text (b : Bytes) := ascii "\"" ++ pf.escape b ++ ascii "\""
  let number (n : ℕ) := ascii (toString n)
  let flag (b : Bool) := ascii (if b then "true" else "false")
  let members := [("ArchiveCreationDelay", number s.ArchiveCreationDelay),
    ("ArchiveRetention", number s.ArchiveRetention),
    ("ArchiveStoragePath", text s.ArchiveStoragePath), ("AuthTimeout", number s.AuthTimeout),
    ("AutoArchiveSaving", flag s.AutoArchiveSaving), ("CacheSize", number s.CacheSize),
    ("CompactingInterval", number s.CompactingInterval), ("DBPort", number s.DBPort),
    ("DbPath", text s.DbPath),
    ("FlushInterval", number s.FlushInterval), ("IdleTimeout", number s.IdleTimeout),
    ("MaxConnections", number s.MaxConnections), ("MaxKeySize", number s.MaxKeySize),
    ("MaxValueSize", number s.MaxValueSize), ("NetworkValidation", text s.NetworkValidationStr),
    ("SSLCertPath", text s.SSLCertPath), ("SSLKeyPath", text s.SSLKeyPath),
    ("SegSize", number s.SegSize),
    ("WebPort", number s.WebPort), ("fsyncOnWrite", flag s.fsyncOnWrite),
    ("isDebug", flag s.isDebug),
    ("jsonOnly", flag s.jsonOnly), ("readOnly", flag s.readOnly), ("useSSL", flag s.useSSL)]
  ascii "\x7b" ++ List.intercalate (ascii ",")
    (members.map fun m => ascii "\"" ++ ascii m.1 ++ ascii "\":" ++ m.2) ++ ascii "\x7d"

structure Settings.Accepted (s : Settings) : Prop where
  typed : s.Typed
  value : s.MaxValueSize < s.SegSize
  key : s.MaxKeySize ≤ MAX_KEY_SIZE

variable {pf : Platform} {file : ConfigFile} {s t : Settings} {param value : Bytes}

lemma ConfigFile.read_typed (hf : file.Typed) (h : file.read = some s) : s.Typed := by
  simp only [ConfigFile.read] at h
  split_ifs at h
  obtain ⟨r, hr, rfl⟩ := Option.map_eq_some_iff.mp h
  have ht := hf r hr
  exact ⟨ht.SegSize, ht.MaxKeySize, ht.MaxValueSize⟩

lemma checkConfig_accepted (hs : s.Typed) (h : checkConfig pf s = some t) : t.Accepted := by
  simp only [checkConfig] at h
  split_ifs at h with _ _ _ hv _ _
  obtain rfl := Option.some.inj h
  exact ⟨⟨hs.SegSize, (min_le_right _ _).trans_lt (by decide), hs.MaxValueSize⟩, not_le.mp hv,
    min_le_right _ _⟩

lemma loadConfig_accepted (hf : file.Typed) (h : loadConfig pf file = some s) : s.Accepted := by
  obtain ⟨r, hr, hc⟩ := Option.bind_eq_some_iff.mp h
  exact checkConfig_accepted (ConfigFile.read_typed hf hr) hc

lemma reloadedSettings_accepted (hf : file.Typed) (h : reloadedSettings pf file s = .ok t) :
    t.Accepted := by
  simp only [reloadedSettings] at h
  split at h
  · cases h
  · next r hr =>
    split_ifs at h
    obtain rfl := Except.ok.inj h
    exact loadConfig_accepted hf hr

lemma fromChars_lt {bound n : ℕ} {str : Bytes} (h : fromChars bound str = some n) : n < bound := by
  simp only [fromChars] at h
  split_ifs at h with hc
  obtain rfl := Option.some.inj h
  exact not_le.mp fun hle => hc (Or.inr hle)

lemma parseUInt_lt {bound n : ℕ} {str : Bytes} (h : parseUInt bound str = some n) : n < bound := by
  simp only [parseUInt] at h
  split_ifs at h
  exact fromChars_lt h

def Setter.Keeps (f : Setter) : Prop := ∀ s value t, s.Accepted → f s value = .ok t → t.Accepted

lemma setSegSize_keeps : Setter.Keeps setSegSize := by
  intro s value t hs h
  simp only [setSegSize] at h
  split at h
  · cases h
  · next v hv =>
    split_ifs at h with hle
    obtain rfl := Except.ok.inj h
    exact ⟨⟨parseUInt_lt hv, hs.typed.MaxKeySize, hs.typed.MaxValueSize⟩, not_le.mp hle, hs.key⟩

lemma setMaxKeySize_keeps : Setter.Keeps setMaxKeySize := by
  intro s value t hs h
  simp only [setMaxKeySize] at h
  split at h
  · cases h
  · next v hv =>
    split_ifs at h with hle
    obtain rfl := Except.ok.inj h
    exact ⟨⟨hs.typed.SegSize, parseUInt_lt hv, hs.typed.MaxValueSize⟩, hs.value, not_lt.mp hle⟩

lemma setMaxValueSize_keeps : Setter.Keeps setMaxValueSize := by
  intro s value t hs h
  simp only [setMaxValueSize] at h
  split at h
  · cases h
  · next v hv =>
    split_ifs at h with hle
    obtain rfl := Except.ok.inj h
    exact ⟨⟨hs.typed.SegSize, hs.typed.MaxKeySize, parseUInt_lt hv⟩, not_le.mp hle, hs.key⟩

def SameSizes (s t : Settings) : Prop :=
  t.SegSize = s.SegSize ∧ t.MaxKeySize = s.MaxKeySize ∧ t.MaxValueSize = s.MaxValueSize

lemma Settings.Accepted.of_sizes (hs : s.Accepted) (h : SameSizes s t) : t.Accepted := by
  obtain ⟨h1, h2, h3⟩ := h
  refine ⟨⟨?_, ?_, ?_⟩, ?_, ?_⟩
  · exact h1 ▸ hs.typed.SegSize
  · exact h2 ▸ hs.typed.MaxKeySize
  · exact h3 ▸ hs.typed.MaxValueSize
  · rw [h1, h3]
    exact hs.value
  · exact h2 ▸ hs.key

lemma setCacheSize_keeps : Setter.Keeps setCacheSize := by
  intro s value t hs h
  simp only [setCacheSize] at h
  split at h
  · cases h
  · obtain rfl := Except.ok.inj h
    exact hs.of_sizes ⟨rfl, rfl, rfl⟩

lemma setNetworkValidation_keeps : Setter.Keeps (setNetworkValidation pf) := by
  intro s value t hs h
  simp only [setNetworkValidation] at h
  split at h
  · cases h
  · obtain rfl := Except.ok.inj h
    exact hs.of_sizes ⟨rfl, rfl, rfl⟩

lemma setSeconds_keeps {name : String} {put : Settings → ℕ → Settings}
    (hp : ∀ s v, SameSizes s (put s v)) :
    Setter.Keeps (setSeconds name put) := by
  intro s value t hs h
  simp only [setSeconds] at h
  split at h
  · cases h
  · cases h
  · obtain rfl := Except.ok.inj h
    exact hs.of_sizes (hp s _)

lemma setFlag_keeps {name : String} {put : Settings → Bool → Settings}
    (hp : ∀ s v, SameSizes s (put s v)) :
    Setter.Keeps (setFlag name put) := by
  intro s value t hs h
  simp only [setFlag] at h
  split_ifs at h
  all_goals
    obtain rfl := Except.ok.inj h
    exact hs.of_sizes (hp s _)

lemma params_keep : ∀ p ∈ params pf, Setter.Keeps p.2 := by
  have hsame : ∀ s : Settings, SameSizes s s := fun s => ⟨rfl, rfl, rfl⟩
  simp only [params, List.forall_mem_cons, List.not_mem_nil, false_implies, implies_true, and_true]
  refine ⟨setSegSize_keeps, setMaxKeySize_keeps, setMaxValueSize_keeps, setCacheSize_keeps, ?_, ?_,
    setNetworkValidation_keeps, ?_, ?_, ?_, ?_, ?_, ?_⟩
  · exact setSeconds_keeps fun s v => hsame s
  · exact setSeconds_keeps fun s v => hsame s
  · exact setFlag_keeps fun s v => hsame s
  · exact fun s value t hs h => by cases h
  · exact setFlag_keeps fun s v => hsame s
  · exact setFlag_keeps fun s v => hsame s
  · exact setSeconds_keeps fun s v => hsame s
  · exact setFlag_keeps fun s v => hsame s

theorem setParam_accepted (hs : s.Accepted) (h : setParam pf s param value = .ok t) :
    t.Accepted := by
  simp only [setParam] at h
  split at h
  · next p hp => exact params_keep p (List.mem_of_find?_eq_some hp) s value t hs h
  · cases h

end Zest
