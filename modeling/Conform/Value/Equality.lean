import Conform.Value

/-!
# Equality of values

Numbers are compared as floating-point numbers, so a value with a NaN in it differs from itself.
Mappings are equal when they have as many entries and every entry of the first has an equal one
under the same key in the second; the order of the entries does not matter.
-/

namespace Conform.Value

mutual

/-- Equality of values: numbers as floating-point numbers, mappings in whatever order. -/
def equal : Value → Value → Bool
  | absent, absent => true
  | null, null => true
  | bool a, bool b => a == b
  | number x, number y => x.equal y
  | bigInt m, bigInt n => m == n
  | string s, string t => s == t
  | sequence items, sequence others => equalItems items others
  | mapping entries, mapping others =>
    entries.length == others.length && equalEntries entries others
  | _, _ => false

def equalItems : List Value → List Value → Bool
  | [], [] => true
  | item :: rest, other :: others => equal item other && equalItems rest others
  | _, _ => false

/-- Every entry has an equal one among the others. -/
def equalEntries : List (String × Value) → List (String × Value) → Bool
  | [], _ => true
  | (key, value) :: rest, others =>
    (match Entries.get? key others with
      | some other => equal value other
      | none => false) && equalEntries rest others

end

end Conform.Value
