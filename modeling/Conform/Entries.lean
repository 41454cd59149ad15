/-!
# Keyed entries

A mapping is a list of entries, a key with what stands under it, in the order in which the
keys were first written. `put` keeps the place of a key that is present and appends a new one,
`insert` works on a list in strictly ascending key order and keeps that order, and `collect`
and `sorted` build a list of either kind from entries that may repeat a key. In both the last
entry of a key wins.

* `get?_put`, `get?_insert`: a key that was written is found, and the others are untouched.
* `keys_put`: the keys after `put`.
-/

namespace Conform.Entries

variable {α : Type}

/-- The keys in the order of the entries. -/
def keys (entries : List (String × α)) : List String :=
  entries.map (·.1)

/-- What stands under a key. Where a key is repeated, this is the first entry of that key. -/
def get? (key : String) : List (String × α) → Option α
  | [] => none
  | (k, v) :: rest => if k = key then some v else get? key rest

/-- Whether there is an entry with the key. -/
def has (key : String) (entries : List (String × α)) : Bool :=
  (get? key entries).isSome

/-- Writes under a key. A key that is there keeps its place, and a new one comes last. -/
def put (key : String) (value : α) : List (String × α) → List (String × α)
  | [] => [(key, value)]
  | (k, v) :: rest => if k = key then (k, value) :: rest else (k, v) :: put key value rest

/-- Keys ascend by code points, which is also the order of their UTF-8 bytes. -/
def insert (key : String) (value : α) : List (String × α) → List (String × α)
  | [] => [(key, value)]
  | (k, v) :: rest =>
    if k = key then (key, value) :: rest
    else if key < k then (key, value) :: (k, v) :: rest
    else (k, v) :: insert key value rest

/-- The entries as they are written one after the other; the last one of a key counts. -/
def collect (entries : List (String × α)) : List (String × α) :=
  entries.foldl (fun done entry => put entry.1 entry.2 done) []

/-- The entries in the order of their keys; the last one of a key counts. -/
def sorted (entries : List (String × α)) : List (String × α) :=
  entries.foldl (fun done entry => insert entry.1 entry.2 done) []

/-! ## Looking up what was written -/

theorem get?_put (key k : String) (value : α) (entries : List (String × α)) :
    get? k (put key value entries) = if key = k then some value else get? k entries := by
  fun_induction put key value entries with
  | case1 => rfl
  | case2 v rest => by_cases h : key = k <;> simp [get?, h]
  | case3 k' v rest hk ih =>
    by_cases h : k' = k
    · subst h
      simp [get?, Ne.symm hk]
    · simp [get?, h, ih]

theorem get?_insert (key k : String) (value : α) (entries : List (String × α)) :
    get? k (insert key value entries) = if key = k then some value else get? k entries := by
  fun_induction insert key value entries with
  | case1 => rfl
  | case2 v rest => by_cases h : key = k <;> simp [get?, h]
  | case3 k' v rest hk hlt => rfl
  | case4 k' v rest hk hlt ih =>
    by_cases h : k' = k
    · subst h
      simp [get?, Ne.symm hk]
    · simp [get?, h, ih]

theorem keys_put (key : String) (value : α) (entries : List (String × α)) :
    keys (put key value entries) =
      if key ∈ keys entries then keys entries else keys entries ++ [key] := by
  fun_induction put key value entries with
  | case1 => rfl
  | case2 v rest => simp [keys]
  | case3 k v rest hk ih =>
    simp only [keys] at ih
    by_cases hm : key ∈ rest.map (·.1) <;> simp [keys, ih, hm, Ne.symm hk]

end Conform.Entries
