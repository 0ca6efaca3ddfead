import ZestDB.Database.Rule
import ZestDB.Store
import Mathlib.Data.List.DropRight

/-! The first half of `ZestDB::execCmd`: from the text of a command to what it asks for. -/

namespace Zest

def isBlank (b : Byte) : Bool := b = 32 || b = 9 || b = 13 || b = 10

def isLineEnd (b : Byte) : Bool := b = 13 || b = 10

/-- A word of a command, and the text from its first byte on. -/
structure Word where
  text : Bytes
  suffix : Bytes

def trimmed (command : Bytes) : Bytes := (command.dropWhile isBlank).rdropWhile isLineEnd

def splitWords : ℕ → Bytes → List Word
  | 0, _ => []
  | fuel + 1, sv =>
    if sv = [] then []
    else
      ⟨sv.takeWhile fun b => !isBlank b, sv⟩ ::
        splitWords fuel ((sv.dropWhile fun b => !isBlank b).dropWhile isBlank)

def words (command : Bytes) : List Word := splitWords command.length (trimmed command)

inductive Verb where
  | g | s | d | gb | sb | db | h | f | r | scfg | gcfg | save | unknown
deriving DecidableEq, Repr

def verbs : List (String × Verb) :=
  [("g", .g), ("s", .s), ("d", .d), ("gb", .gb), ("sb", .sb), ("db", .db), ("h", .h), ("f", .f),
    ("r", .r),
    ("scfg", .scfg), ("gcfg", .gcfg), ("save", .save), ("get", .g), ("set", .s), ("del", .d),
    ("getby", .gb), ("setby", .sb), ("delby", .db), ("flush", .f), ("reload", .r), ("help", .h)]

def verbOf (word : Bytes) : Verb :=
  ((verbs.find? fun p => ascii p.1 = toLowerStr word).map Prod.snd).getD .unknown

namespace Verb

def isWrite (v : Verb) : Bool := v = .s || v = .d || v = .sb || v = .db

def isAdmin (v : Verb) : Bool := v = .f || v = .r || v = .scfg || v = .gcfg || v = .save

def denied (v : Verb) (role : Role) : Bool :=
  (v.isWrite && role = .Read) || (v.isAdmin && role ≠ .Admin)

end Verb

inductive Request where
  | get (key : Key)
  | getBy (valid : ValidationRule)
  | write (w : Write)
  | help
  | flush
  | reload
  | scfg (param value : Bytes)
  | gcfg
  | save

def scanLimit : List Word → Option ℕ → Option ℕ
  | w :: next :: rest, limit =>
    scanLimit (next :: rest)
    (if toLowerStr w.text = ascii "lim" then parseUInt (2 ^ 32) next.text else limit)
  | _, limit => limit

def makeRule (pf : Platform) (mode pattern : Word) (limit : Option ℕ) (badRule : Bytes) :
    Except Bytes ValidationRule :=
  match limit, createValidationRule pf (toLowerStr mode.text) pattern.text with
  | none, _ => .error Messages.INVALID_LIMIT
  | some _, none => .error badRule
  | some limit, some func => .ok ⟨func, limit⟩

/-- The value of `setby` and its limit: the last two words are the limit when they say so and a
value is left. -/
def setByValue (first : Word) (rest : List Word) : Value × Option ℕ :=
  match rest.reverse with
  | last :: lim :: lastValue :: _ =>
    if toLowerStr lim.text = ascii "lim" then
      (first.suffix.take (first.suffix.length - lastValue.suffix.length + lastValue.text.length),
        parseUInt (2 ^ 32) last.text)
    else (first.suffix, some UINT_MAX)
  | _ => (first.suffix, some UINT_MAX)

def request (pf : Platform) : Verb → List Word → Except Bytes Request
  | .g, [] => .error Messages.MISSING_KEY
  | .g, key :: _ => .ok (.get key.text)
  | .s, [] => .error Messages.MISSING_KEY
  | .s, [_] => .error Messages.MISSING_VALUE
  | .s, key :: value :: _ => .ok (.write (.set key.text value.suffix))
  | .d, [] => .error Messages.MISSING_KEY
  | .d, key :: _ => .ok (.write (.del key.text))
  | .gb, mode :: pattern :: rest =>
    (makeRule pf mode pattern (scanLimit rest (some UINT_MAX)) Messages.INVALID_REGEX).map .getBy
  | .gb, _ => .error Messages.MISSING_ARGUMENTS
  | .sb, mode :: pattern :: first :: rest =>
    let v := setByValue first (first :: rest)
    (makeRule pf mode pattern v.2 Messages.INVALID_REGEX).map fun valid => .write (.setBy valid v.1)
  | .sb, _ => .error Messages.MISSING_VALUE
  | .db, mode :: pattern :: rest =>
    (makeRule pf mode pattern (scanLimit rest (some UINT_MAX)) Messages.INVALID_MODE).map
      fun valid => .write (.delBy valid)
  | .db, _ => .error Messages.MISSING_PATTERN
  | .h, _ => .ok .help
  | .f, _ => .ok .flush
  | .r, _ => .ok .reload
  | .scfg, param :: value :: _ => .ok (.scfg (toLowerStr param.text) value.text)
  | .scfg, _ => .error Messages.MISSING_ARGUMENTS
  | .gcfg, _ => .ok .gcfg
  | .save, _ => .ok .save
  | .unknown, _ => .error Messages.CMD_NOT_FOUND

def writeOf (pf : Platform) (command : Bytes) : Option Write :=
  match words command with
  | [] => none
  | name :: args =>
    match request pf (verbOf name.text) args with
    | .ok (.write w) => some w
    | _ => none

end Zest
