import Conform.BigInt
import Conform.Double
import Conform.Entries

/-!
# Values

What a schema judges. `absent` stands for no value at all: a mapping may hold a key with nothing
under it, which is neither the same as not having the key nor the same as an explicit `null`.
Numbers are any doubles, NaN and the infinities included. The entries of a mapping have distinct
keys and keep the order in which the keys were first written.
-/

namespace Conform

/-- A value; a sequence may hold absent items, and a mapping keys with nothing under them. -/
inductive Value where
  | absent
  | null
  | bool (b : Bool)
  | number (x : Double)
  | bigInt (n : BigInt)
  | string (text : String)
  | sequence (items : List Value)
  | mapping (entries : List (String × Value))

namespace Value

/-- What a value is called in messages. -/
def kindName : Value → String
  | absent => "absent"
  | null => "null"
  | bool _ => "boolean"
  | number _ => "number"
  | bigInt _ => "bigint"
  | string _ => "string"
  | sequence _ => "sequence"
  | mapping _ => "mapping"

def isAbsent : Value → Bool
  | absent => true
  | _ => false

def isNull : Value → Bool
  | null => true
  | _ => false

def bool? : Value → Option Bool
  | bool b => some b
  | _ => none

def number? : Value → Option Double
  | number x => some x
  | _ => none

def bigInt? : Value → Option BigInt
  | bigInt n => some n
  | _ => none

def string? : Value → Option String
  | string text => some text
  | _ => none

def items? : Value → Option (List Value)
  | sequence items => some items
  | _ => none

def entries? : Value → Option (List (String × Value))
  | mapping entries => some entries
  | _ => none

/-- What stands under a key: nothing for a missing key and for a value that is no mapping, but
`some absent` for a key that is there with nothing under it. -/
def get? (value : Value) (key : String) : Option Value :=
  value.entries?.bind (Entries.get? key)

/-- Writes an entry, if the value is a mapping: what stood under the key, and the new mapping. -/
def insert? (value : Value) (key : String) (entry : Value) : Option (Option Value × Value) :=
  value.entries?.map fun entries =>
    (Entries.get? key entries, mapping (Entries.put key entry entries))

/-- A mapping of entries that may repeat a key; the last of them wins. -/
def ofEntries (entries : List (String × Value)) : Value :=
  mapping (Entries.collect entries)

mutual

/-- Every mapping, at every depth, has distinct keys. -/
def DistinctKeys : Value → Prop
  | sequence items => DistinctKeysItems items
  | mapping entries => (Entries.keys entries).Nodup ∧ DistinctKeysEntries entries
  | _ => True

def DistinctKeysItems : List Value → Prop
  | [] => True
  | item :: rest => DistinctKeys item ∧ DistinctKeysItems rest

def DistinctKeysEntries : List (String × Value) → Prop
  | [] => True
  | (_, value) :: rest => DistinctKeys value ∧ DistinctKeysEntries rest

end

end Value

end Conform
