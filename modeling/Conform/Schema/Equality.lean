import Conform.Schema

/-!
# Equality of schemas

Schemas are equal when they say the same. Bounds and constants are compared as floating-point
numbers, so a schema with a NaN in it differs from itself, and the fields of an object are
compared without regard to the order of their declarations.
-/

namespace Conform

/-- Both are unset, or both are set to equal doubles. -/
def Double.equalOption : Option Double → Option Double → Bool
  | none, none => true
  | some x, some y => x.equal y
  | _, _ => false

/-- Constants of one type are compared as values are. -/
def Constant.equal : Constant → Constant → Bool
  | string s, string t => s == t
  | number x, number y => x.equal y
  | _, _ => false

/-- Leaves of one kind with equal bounds or equal constants. -/
def Leaf.equal : Leaf → Leaf → Bool
  | string a, string b => a == b
  | number a, number b => Double.equalOption a.min b.min && Double.equalOption a.max b.max
  | bigint, bigint => true
  | boolean, boolean => true
  | literal a, literal b => a.equal b
  | _, _ => false

namespace Schema

mutual

/-- Nodes of one kind that say the same, with equal schemas inside; fields come in any order. -/
def equal : Schema → Schema → Bool
  | leaf i a b, leaf i' a' b' => i == i' && a.equal a' && b == b'
  | array i e l, array i' e' l' => i == i' && equal e e' && l == l'
  | tuple i ps, tuple i' ps' => i == i' && equalList ps ps'
  | object i fs, object i' fs' => i == i' && fs.length == fs'.length && equalFields fs fs'
  | record i v none, record i' v' none => i == i' && equal v v'
  | record i v (some k), record i' v' (some k') => i == i' && equal v v' && equal k k'
  | union i alts, union i' alts' => i == i' && equalList alts alts'
  | _, _ => false

/-- Lists of schemas are equal one by one. -/
def equalList : List Schema → List Schema → Bool
  | [], [] => true
  | schema :: rest, other :: others => equal schema other && equalList rest others
  | _, _ => false

/-- Every field has an equal one among the others. -/
def equalFields : List (String × Schema) → List (String × Schema) → Bool
  | [], _ => true
  | (name, schema) :: rest, others =>
    (match Entries.get? name others with
      | some other => equal schema other
      | none => false) && equalFields rest others

end

end Schema

end Conform
