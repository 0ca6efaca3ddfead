import ZestDB.Bytes

/-! `Settings.hpp`: settings, results, messages and rules shared by every layer. -/

namespace Zest

def UINT_MAX : ℕ := 2 ^ 32 - 1

structure ValidationRule where
  func : Key → Bool
  limit : ℕ := UINT_MAX

inductive Role where
  | Read
  | Write
  | Admin
deriving DecidableEq, Repr

inductive Code where
  | Success
  | Error
deriving DecidableEq, Repr

structure ResultType where
  code : Code
  response : Bytes
  affectedRows : ℤ := 0
deriving DecidableEq, Repr

namespace Messages

def KEY_NOT_FOUND := ascii "Key not found"
def VALUE_EMPTY := ascii "The value cannot be empty !"
def SUCCESS_SET := ascii "Key successfully set"
def SUCCESS_DEL := ascii "Key successfully deleted"
def INVALID_REGEX := ascii "Invalid search mode or invalid regex pattern"
def MISSING_KEY := ascii "Error: missing key"
def MISSING_VALUE := ascii "Error: missing value"
def MISSING_PATTERN := ascii "Error: missing pattern"
def CMD_NOT_FOUND := ascii "Command not found"
def FLUSH_SUCCESSFUL := ascii "Flush successful !"
def JSON_ONLY_ERROR := ascii "Invalid format, only json data allowed !"
def READ_ONLY_ERROR := ascii "Modification not allowed ! The database is in read-only mode !"
def NO_COMMAND_GIVEN := ascii "No command were given !"
def INVALID_KEY := ascii "The key does not respect the key validation rule !"
def INVALID_VALUE := ascii "The value does not respect the value validation rule !"
def MISSING_ARGUMENTS := ascii "Not enough arguments provided !"
def UPDATE_SUCCESSFUL := ascii "Values successfuly updated !"
def PERMISSION_DENIED := ascii "Permission denied for this user !"
def READ_FAILED := ascii "Failed to read the value from disk !"
def INVALID_LIMIT := ascii "Invalid limit ! lim expects a positive integer"
def INVALID_MODE := ascii "Invalid mode ! Use a mode between re, sw, ct, ew"

end Messages

structure Settings where
  DbPath : Bytes := []
  IndexPath : Bytes := []
  WalPath : Bytes := []
  SSLCertPath : Bytes := []
  SSLKeyPath : Bytes := []
  ArchiveStoragePath : Bytes := []
  SegSize : ℕ := 128000
  MaxKeySize : ℕ := 64
  MaxValueSize : ℕ := 10000
  CacheSize : ℕ := 1000
  CompactingInterval : ℕ := 3600
  FlushInterval : ℕ := 120
  DBPort : ℕ := 7321
  WebPort : ℕ := 1237
  NetworkValidationStr : Bytes := ascii ".*"
  ArchiveCreationDelay : ℕ := 3600
  ArchiveRetention : ℕ := 10
  MaxConnections : ℕ := 1024
  AuthTimeout : ℕ := 10
  IdleTimeout : ℕ := 300
  AutoArchiveSaving : Bool := true
  isDebug : Bool := false
  useSSL : Bool := false
  jsonOnly : Bool := false
  readOnly : Bool := false
  fsyncOnWrite : Bool := true
deriving DecidableEq, Repr

end Zest
