import ZestDB.Foundations.Json

/-! The grammar of ECMAScript patterns, over octets, and how large a pattern is with its repetitions
written out. -/

namespace Foundations.Regex

open Json (Octets octet Digit Digits)

def Letter (b : Fin 256) : Prop := (octet 'a' ≤ b ∧ b ≤ octet 'z') ∨ (octet 'A' ≤ b ∧ b ≤ octet 'Z')

/-- The octets that stand for themselves or, like `.`, `^` and `$`, for something of size one. -/
def Plain (b : Fin 256) : Prop :=
  b ∉ [octet '\\', octet '*', octet '+', octet '?', octet '(', octet ')', octet '[', octet '\x7b',
    octet '|']

structure Number where
  digits : Octets
  ok : Digits digits

def Number.value (n : Number) : ℕ := n.digits.foldl (fun a d => 10 * a + (d.val - 48)) 0

inductive Repetition where
  | star
  | plus
  | optional
  | exactly (n : Number)
  | atLeast (n : Number)
  | between (n m : Number)

namespace Repetition

def bounds : Repetition → Octets
  | exactly n => n.digits
  | atLeast n => n.digits ++ [octet ',']
  | between n m => n.digits ++ octet ',' :: m.digits
  | _ => []

def text : Repetition → Octets
  | star => [octet '*']
  | plus => [octet '+']
  | optional => [octet '?']
  | q => octet '\x7b' :: (q.bounds ++ [octet '\x7d'])

def largest : Repetition → ℕ
  | exactly n => n.value
  | atLeast n => n.value
  | between n m => max n.value m.value
  | _ => 0

def factor (q : Repetition) : ℕ := max q.largest 1

end Repetition

inductive ClassItem where
  | plain (b : Fin 256) (ok : b ∉ [octet ']', octet '\\'])
  | escaped (b : Fin 256)

def ClassItem.text : ClassItem → Octets
  | plain b _ => [b]
  | escaped b => [octet '\\', b]

/-- A class that is not negated has no `^` in front. -/
structure CharClass where
  negated : Bool
  items : List ClassItem
  ok : negated = true ∨ (items.flatMap ClassItem.text).head? ≠ some (octet '^')

def CharClass.text (c : CharClass) : Octets :=
  octet '[' :: ((if c.negated then [octet '^'] else []) ++ c.items.flatMap ClassItem.text ++
    [octet ']'])

inductive GroupKind where
  | capturing
  | plain
  | lookahead
  | negativeLookahead

def GroupKind.text : GroupKind → Octets
  | capturing => []
  | plain => [octet '?', octet ':']
  | lookahead => [octet '?', octet '=']
  | negativeLookahead => [octet '?', octet '!']

inductive Level where
  | atom
  | term
  | alternative
  | disjunction

inductive Pattern : Level → Type where
  | char (b : Fin 256) (ok : Plain b) : Pattern .atom
  | escape (b : Fin 256) (tail : Octets) (ok : ∀ b ∈ tail, Letter b ∨ Digit b) : Pattern .atom
  | cls (c : CharClass) : Pattern .atom
  | group (kind : GroupKind) (d : Pattern .disjunction) : Pattern .atom
  | once (a : Pattern .atom) : Pattern .term
  | repeated (a : Pattern .atom) (q : Repetition) (reluctant : Bool) : Pattern .term
  | empty : Pattern .alternative
  | cons (t : Pattern .term) (ts : Pattern .alternative) : Pattern .alternative
  | single (a : Pattern .alternative) : Pattern .disjunction
  | or (a : Pattern .alternative) (d : Pattern .disjunction) : Pattern .disjunction

namespace Pattern

def text {l : Level} : Pattern l → Octets
  | char b _ => [b]
  | escape b tail _ => octet '\\' :: b :: tail
  | cls c => c.text
  | group kind d => octet '(' :: (kind.text ++ d.text ++ [octet ')'])
  | once a => a.text
  | repeated a q reluctant => a.text ++ q.text ++ (if reluctant then [octet '?'] else [])
  | empty => []
  | cons t ts => t.text ++ ts.text
  | single a => a.text
  | or a d => a.text ++ octet '|' :: d.text

def depth {l : Level} : Pattern l → ℕ
  | group _ d => d.depth + 1
  | once a => a.depth
  | repeated a _ _ => a.depth
  | cons t ts => max t.depth ts.depth
  | single a => a.depth
  | or a d => max a.depth d.depth
  | _ => 0

/-- One for each character, escape and class, with the bounded repetitions multiplied out. -/
def size {l : Level} : Pattern l → ℕ
  | char _ _ => 1
  | escape _ _ _ => 1
  | cls _ => 1
  | group _ d => d.size
  | once a => a.size
  | repeated a q _ => a.size * q.factor
  | empty => 0
  | cons t ts => t.size + ts.size
  | single a => a.size
  | or a d => a.size + d.size

end Pattern

end Foundations.Regex
