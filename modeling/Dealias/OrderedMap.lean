/-!
# Maps in order of insertion

A map from texts to values that keeps its keys in the order in which they first came.  Inserting a
key that is already there replaces its value and leaves its position.
-/

namespace Dealias

/-- Replace the value of `key`, or add the key at the end. -/
def upsert {Key Value : Type} [DecidableEq Key] (key : Key) (value : Value) :
    List (Key × Value) → List (Key × Value)
  | [] => [(key, value)]
  | entry :: rest =>
    if entry.1 = key then (key, value) :: rest else entry :: upsert key value rest

theorem mem_keys_upsert {Key Value : Type} [DecidableEq Key] {key other : Key} {value : Value}
    {entries : List (Key × Value)} :
    other ∈ (upsert key value entries).map Prod.fst ↔
      other = key ∨ other ∈ entries.map Prod.fst := by
  induction entries with
  | nil => simp [upsert]
  | cons entry rest ih =>
    by_cases same : entry.1 = key
    · simp [upsert, same]
    · simp only [upsert, same, if_false, List.map_cons, List.mem_cons, ih]
      constructor <;> rintro (h | h | h) <;> simp [h]

theorem nodup_keys_upsert {Key Value : Type} [DecidableEq Key] (key : Key) (value : Value)
    {entries : List (Key × Value)} (distinct : (entries.map Prod.fst).Nodup) :
    ((upsert key value entries).map Prod.fst).Nodup := by
  induction entries with
  | nil => simp [upsert]
  | cons entry rest ih =>
    rw [List.map_cons, List.nodup_cons] at distinct
    by_cases same : entry.1 = key
    · subst same
      simpa [upsert] using distinct
    · simp only [upsert, same, if_false, List.map_cons, List.nodup_cons]
      refine ⟨fun member => ?_, ih distinct.2⟩
      rcases mem_keys_upsert.1 member with h | h
      · exact same h
      · exact distinct.1 h

/-- A map that remembers the order in which its keys came. -/
structure OrderedMap (Value : Type) where
  entries : List (String × Value)
  distinct : (entries.map Prod.fst).Nodup := by simp

namespace OrderedMap

variable {Value : Type}

/-- The map without keys. -/
def empty : OrderedMap Value where
  entries := []

instance : Inhabited (OrderedMap Value) := ⟨empty⟩

/-- Give `key` a value. -/
def insert (map : OrderedMap Value) (key : String) (value : Value) : OrderedMap Value where
  entries := upsert key value map.entries
  distinct := nodup_keys_upsert key value map.distinct

/-- Insert pairs one after the other. -/
def insertAll (map : OrderedMap Value) (pairs : List (String × Value)) : OrderedMap Value :=
  pairs.foldl (fun map pair => map.insert pair.1 pair.2) map

/-- The map that pairs build from nothing. -/
def ofList (pairs : List (String × Value)) : OrderedMap Value :=
  empty.insertAll pairs

/-- The same map with its keys in ascending order of their characters. -/
def sortKeys (map : OrderedMap Value) : OrderedMap Value where
  entries := map.entries.mergeSort fun first second => first.1 ≤ second.1
  distinct := ((List.mergeSort_perm map.entries _).map Prod.fst).nodup_iff.2 map.distinct

@[ext] theorem ext {first second : OrderedMap Value} (same : first.entries = second.entries) :
    first = second := by
  cases first
  cases second
  cases same
  rfl

end OrderedMap
end Dealias
