import ZestDB.Settings
import ZestDB.Choice

/-! `ZestDB::createValidationRule`: the rules of the bulk commands, and the guard on regular
expressions. -/

namespace Zest

def isDigit (b : Byte) : Bool := 48 ≤ b && b ≤ 57

def decimal (digits : Bytes) : ℕ := digits.foldl (fun a d => 10 * a + (d.val - 48)) 0

/-- `std::from_chars`: the number at the front of the text, if it is below `bound`. -/
def fromChars (bound : ℕ) (str : Bytes) : Option ℕ :=
  let digits := str.takeWhile isDigit
  if digits = [] ∨ bound ≤ decimal digits then none else some (decimal digits)

def parseUInt (bound : ℕ) (str : Bytes) : Option ℕ :=
  if str.all isDigit then fromChars bound str else none

def toLowerStr (str : Bytes) : Bytes := str.map fun b => if 65 ≤ b && b ≤ 90 then b + 32 else b

namespace RegexGuard

def maxLength : ℕ := 1024
def maxDepth : ℕ := 32
def maxStates : ℕ := 100000

def splitComma (bounds : Bytes) : List Bytes := bounds.splitOn 44

/-- The largest bound of a repetition, or `none` when one is not a number that is small enough. -/
def repeats (bounds : Bytes) : Option ℕ :=
  if bounds = [] then some 0
  else
    (splitComma bounds).foldl (fun acc part => do
      let biggest ← acc
      let value ← if part = [] then some 0 else fromChars (2 ^ 64) part
      if value > maxStates then none else some (max biggest value)) (some 0)

/-- What follows the class that the text is in the middle of. -/
def afterClass : ℕ → Bytes → Bytes
  | 0, _ => []
  | _ + 1, [] => []
  | fuel + 1, c :: rest =>
    if c = 93 then rest else if c = 92 then afterClass fuel (rest.drop 1) else afterClass fuel rest

def skip (b : Byte) (pattern : Bytes) : Bytes :=
  if pattern.head? = some b then pattern.tail else pattern

def scan : ℕ → Bytes → List ℕ → ℕ → Bool
  | 0, _, _, _ => false
  | _ + 1, [], _, _ => false
  | fuel + 1, c :: rest, cost, lastAtom =>
    let go (rest : Bytes) (cost : List ℕ) (lastAtom : ℕ) : Bool :=
      cost.headD 0 > maxStates || scan fuel rest cost lastAtom
    let addTop (n : ℕ) : List ℕ := (cost.headD 0 + n) :: cost.tail
    if c = 40 then cost.length > maxDepth || scan fuel rest (0 :: cost) 0
    else if c = 41 ∧ cost.length > 1 then
      let atom := cost.headD 0 + 1
      go rest ((cost.tail.headD 0 + atom) :: cost.tail.tail) atom
    else if c = 123 ∧ 125 ∈ rest then
      match repeats (rest.takeWhile (· ≠ 125)) with
      | none => true
      | some n => go ((rest.dropWhile (· ≠ 125)).drop 1) (addTop (lastAtom * (n - 1))) lastAtom
    else if c = 91 then go (afterClass rest.length (skip 93 (skip 94 rest))) (addTop 1) 1
    else if c = 92 then go (rest.drop 1) (addTop 1) 1
    else go rest (addTop 1) 1

end RegexGuard

def isRegexTooComplex (pattern : Bytes) : Bool :=
  pattern.length > RegexGuard.maxLength || RegexGuard.scan pattern.length pattern [0] 0

def hasBackReference : Bytes → Bool
  | a :: b :: rest => (a = 92 && 49 ≤ b && b ≤ 57) || hasBackReference (b :: rest)
  | _ => false

/-- The keys a mode and a pattern select, or `none` for a mode or a pattern that is refused. -/
def createValidationRule (pf : Platform) (mode pattern : Bytes) : Option (Key → Bool) :=
  if mode = ascii "re" then
    if isRegexTooComplex pattern || hasBackReference pattern then none else pf.regex pattern
  else if mode = ascii "sw" then some fun key => key.take pattern.length = pattern
  else if mode = ascii "ct" then some fun key => decide (pattern <:+: key)
  else if mode = ascii "ew" then
    some fun key => pattern.length ≤ key.length && key.drop (key.length - pattern.length) = pattern
  else none

end Zest
