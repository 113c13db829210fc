import Mathlib.Data.List.Induction
import Dealias.OrderedMap

/-!
# Maps seen through their keys and values

A map is looked at by the row of its keys (`OrderedMap.keys`) and by the value of each key
(`OrderedMap.get?`).  The two together are the map (`OrderedMap.ext_get?`).

* `OrderedMap.keys_ofList`, `OrderedMap.get?_insertAll`: of the pairs that are inserted, the first
  one with a key fixes its position and the last one its value.
* `OrderedMap.isAscending_sortKeys`, `OrderedMap.get?_sortKeys`: sorting brings the keys into
  ascending order and keeps the values.
* `OrderedMap.IsAscending.ext`: an ascending map is told by the values of its keys.
-/

namespace Dealias

/-! ## Lists of pairs -/

section Upsert

variable {Key Value : Type} [DecidableEq Key] [BEq Key] [LawfulBEq Key] {key other : Key}
  {value : Value} {entries : List (Key × Value)}

theorem lookup_upsert_self (key : Key) (value : Value) (entries : List (Key × Value)) :
    (upsert key value entries).lookup key = some value := by
  induction entries with
  | nil => simp [upsert]
  | cons entry rest ih =>
      obtain ⟨first, stored⟩ := entry
      by_cases hsame : first = key
      · simp [upsert, hsame]
      · simp [upsert, hsame, List.lookup_cons, beq_false_of_ne (Ne.symm hsame), ih]

theorem lookup_upsert_of_ne (hother : other ≠ key) :
    (upsert key value entries).lookup other = entries.lookup other := by
  induction entries with
  | nil => simp [upsert, List.lookup_cons, beq_false_of_ne hother]
  | cons entry rest ih =>
      obtain ⟨first, stored⟩ := entry
      by_cases hsame : first = key
      · subst hsame
        simp [upsert, List.lookup_cons, beq_false_of_ne hother]
      · simp [upsert, hsame, List.lookup_cons, ih]

omit [BEq Key] [LawfulBEq Key] in
/-- Replacing a value leaves the keys as they are. -/
theorem keys_upsert_of_mem (hkey : key ∈ entries.map Prod.fst) :
    (upsert key value entries).map Prod.fst = entries.map Prod.fst := by
  induction entries with
  | nil => simp at hkey
  | cons entry rest ih =>
      by_cases hsame : entry.1 = key
      · simp [upsert, hsame]
      · have hrest : key ∈ rest.map Prod.fst := by simpa [Ne.symm hsame] using hkey
        simp [upsert, hsame, ih hrest]

omit [BEq Key] [LawfulBEq Key] in
/-- A key that is new comes last. -/
theorem keys_upsert_of_notMem (hkey : key ∉ entries.map Prod.fst) :
    (upsert key value entries).map Prod.fst = entries.map Prod.fst ++ [key] := by
  induction entries with
  | nil => rfl
  | cons entry rest ih =>
      have hsame : entry.1 ≠ key := fun hsame => hkey (by simp [hsame])
      have hrest : key ∉ rest.map Prod.fst := fun hrest => hkey (by simp [hrest])
      simp [upsert, hsame, ih hrest]

omit [DecidableEq Key] in
theorem lookup_eq_none_of_notMem (hkey : key ∉ entries.map Prod.fst) :
    entries.lookup key = none := by
  rw [List.lookup_eq_none_iff]
  intro entry hentry
  exact bne_iff_ne.mpr fun hsame => hkey (List.mem_map.mpr ⟨entry, hentry, hsame.symm⟩)

omit [DecidableEq Key] in
/-- Lists of pairs with the same keys, none of them twice, are equal when the keys have the same
values. -/
theorem eq_of_lookup_eq {first second : List (Key × Value)}
    (hkeys : first.map Prod.fst = second.map Prod.fst) (hdistinct : (first.map Prod.fst).Nodup)
    (hlookup : ∀ key, first.lookup key = second.lookup key) : first = second := by
  induction first generalizing second with
  | nil => simpa using hkeys
  | cons entry rest ih =>
      obtain ⟨key, value⟩ := entry
      cases second with
      | nil => simp at hkeys
      | cons entry' rest' =>
          obtain ⟨key', value'⟩ := entry'
          obtain ⟨rfl, hrest⟩ : key = key' ∧ rest.map Prod.fst = rest'.map Prod.fst := by
            simpa using hkeys
          have hvalue : value = value' := by simpa using hlookup key
          rw [List.map_cons, List.nodup_cons] at hdistinct
          rw [hvalue, ih hrest hdistinct.2]
          intro other
          by_cases hother : other = key
          · subst hother
            rw [lookup_eq_none_of_notMem hdistinct.1,
              lookup_eq_none_of_notMem (hrest ▸ hdistinct.1)]
          · simpa [List.lookup_cons, beq_false_of_ne hother] using hlookup other

omit [DecidableEq Key] in
/-- Where no key comes twice, each pair is found. -/
theorem lookup_eq_some_iff_mem (hdistinct : (entries.map Prod.fst).Nodup) :
    entries.lookup key = some value ↔ (key, value) ∈ entries := by
  induction entries with
  | nil => simp
  | cons entry rest ih =>
      obtain ⟨first, stored⟩ := entry
      rw [List.map_cons, List.nodup_cons] at hdistinct
      by_cases hsame : key = first
      · subst hsame
        have hrest : (key, value) ∉ rest := fun hrest =>
          hdistinct.1 (List.mem_map.mpr ⟨_, hrest, rfl⟩)
        simp [hrest, eq_comm]
      · simp [List.lookup_cons, beq_false_of_ne hsame, hsame, ih hdistinct.2]

omit [DecidableEq Key] in
/-- Where no key comes twice, the order of the pairs does not matter. -/
theorem lookup_eq_of_perm {first second : List (Key × Value)} (hperm : first.Perm second)
    (hdistinct : (first.map Prod.fst).Nodup) (key : Key) :
    first.lookup key = second.lookup key := by
  apply Option.ext
  intro value
  rw [lookup_eq_some_iff_mem hdistinct,
    lookup_eq_some_iff_mem ((hperm.map Prod.fst).nodup_iff.mp hdistinct), hperm.mem_iff]

end Upsert

namespace OrderedMap

variable {Value : Type}

/-- The keys in their order. -/
def keys (map : OrderedMap Value) : List String :=
  map.entries.map Prod.fst

/-- The value of a key. -/
def get? (map : OrderedMap Value) (key : String) : Option Value :=
  map.entries.lookup key

@[simp]
theorem get?_empty (key : String) : (empty : OrderedMap Value).get? key = none := rfl

/-- A map is its keys and their values. -/
theorem ext_get? {first second : OrderedMap Value} (hkeys : first.keys = second.keys)
    (hget : ∀ key, first.get? key = second.get? key) : first = second :=
  ext (eq_of_lookup_eq hkeys first.distinct hget)

theorem get?_eq_some_iff {map : OrderedMap Value} {key : String} {value : Value} :
    map.get? key = some value ↔ (key, value) ∈ map.entries :=
  lookup_eq_some_iff_mem map.distinct

theorem isSome_get? {map : OrderedMap Value} {key : String} :
    (map.get? key).isSome = true ↔ key ∈ map.keys := by
  rw [Option.isSome_iff_exists, keys, List.mem_map]
  constructor
  · rintro ⟨value, hvalue⟩
    exact ⟨(key, value), get?_eq_some_iff.mp hvalue, rfl⟩
  · rintro ⟨⟨_, value⟩, hentry, rfl⟩
    exact ⟨value, get?_eq_some_iff.mpr hentry⟩

/-! ## Inserting pairs -/

theorem get?_insert (map : OrderedMap Value) (key : String) (value : Value) (other : String) :
    (map.insert key value).get? other = if other = key then some value else map.get? other := by
  split
  case isTrue hsame =>
      subst hsame
      exact lookup_upsert_self _ _ _
  case isFalse hother => exact lookup_upsert_of_ne hother

theorem keys_insert (map : OrderedMap Value) (key : String) (value : Value) :
    (map.insert key value).keys = if key ∈ map.keys then map.keys else map.keys ++ [key] := by
  split
  case isTrue hkey => exact keys_upsert_of_mem hkey
  case isFalse hkey => exact keys_upsert_of_notMem hkey

/-- The last pair with a key fixes its value. -/
theorem get?_insertAll (map : OrderedMap Value) (pairs : List (String × Value)) (key : String) :
    (map.insertAll pairs).get? key = (pairs.reverse.lookup key).or (map.get? key) := by
  induction pairs generalizing map with
  | nil => rfl
  | cons pair pairs ih =>
      have hstep : map.insertAll (pair :: pairs) = (map.insert pair.1 pair.2).insertAll pairs := rfl
      have hpair : (if key = pair.1 then some pair.2 else map.get? key) =
          ([pair].lookup key).or (map.get? key) := by
        obtain ⟨first, stored⟩ := pair
        by_cases hsame : key = first
        · simp [hsame]
        · simp [hsame, List.lookup_cons, beq_false_of_ne hsame]
      rw [hstep, ih, get?_insert, hpair, List.reverse_cons, List.lookup_append, Option.or_assoc]

/-- The keys of another map's pairs take its values. -/
theorem get?_insertAll_entries (map other : OrderedMap Value) (key : String) :
    (map.insertAll other.entries).get? key = (other.get? key).or (map.get? key) := by
  rw [get?_insertAll, ← lookup_eq_of_perm (List.reverse_perm _).symm other.distinct key]
  rfl

theorem get?_ofList (pairs : List (String × Value)) (key : String) :
    (ofList pairs).get? key = pairs.reverse.lookup key := by
  rw [ofList, get?_insertAll, get?_empty, Option.or_none]

/-- The first pair with a key fixes its position. -/
theorem keys_ofList (pairs : List (String × Value)) :
    (ofList pairs).keys = (pairs.map Prod.fst).eraseDups := by
  -- the pairs are inserted from the first one on, so the last one is taken off
  induction pairs using List.reverseRecOn with
  | nil => rfl
  | append_singleton pairs pair ih =>
      have hstep : ofList (pairs ++ [pair]) = (ofList pairs).insert pair.1 pair.2 :=
        List.foldl_append
      rw [hstep, keys_insert, ih, List.map_append, List.eraseDups_append]
      by_cases hkey : pair.1 ∈ pairs.map Prod.fst
      · rw [if_pos (List.mem_eraseDups.mpr hkey)]
        simp [List.removeAll, hkey]
      · rw [if_neg (mt List.mem_eraseDups.mp hkey)]
        simp [List.removeAll, hkey, List.eraseDups_cons]

/-- Where no key comes twice, none is left out. -/
theorem eraseDups_of_nodup {keys : List String} (hdistinct : keys.Nodup) :
    keys.eraseDups = keys := by
  induction keys with
  | nil => rfl
  | cons key keys ih =>
      obtain ⟨hkey, hkeys⟩ := List.nodup_cons.mp hdistinct
      have hothers : (keys.filter fun other => !other == key) = keys := by
        rw [List.filter_eq_self]
        intro other hother
        simpa using ne_of_mem_of_not_mem hother hkey
      rw [List.eraseDups_cons, hothers, ih hkeys]

/-- A map is built from its entries. -/
theorem ofList_entries (map : OrderedMap Value) : ofList map.entries = map := by
  apply ext_get?
  · rw [keys_ofList]
    exact eraseDups_of_nodup map.distinct
  · intro key
    rw [get?_ofList, ← lookup_eq_of_perm (List.reverse_perm _).symm map.distinct key]
    rfl

/-! ## Sorting -/

/-- Whether the keys are in ascending order. -/
def IsAscending (map : OrderedMap Value) : Prop :=
  map.keys.Pairwise (· < ·)

theorem perm_sortKeys (map : OrderedMap Value) : map.sortKeys.entries.Perm map.entries :=
  List.mergeSort_perm _ _

theorem get?_sortKeys (map : OrderedMap Value) (key : String) :
    map.sortKeys.get? key = map.get? key :=
  lookup_eq_of_perm map.perm_sortKeys map.sortKeys.distinct key

theorem isAscending_sortKeys (map : OrderedMap Value) : map.sortKeys.IsAscending := by
  have hsorted : map.sortKeys.keys.Pairwise (· ≤ ·) := by
    rw [keys, List.pairwise_map]
    refine List.Pairwise.imp of_decide_eq_true (List.pairwise_mergeSort ?_ ?_ map.entries)
    · intro first second third hfirst hsecond
      exact decide_eq_true (String.le_trans (of_decide_eq_true hfirst) (of_decide_eq_true hsecond))
    · intro first second
      simpa using String.le_total first.1 second.1
  apply (hsorted.and map.sortKeys.distinct).imp
  intro first second hboth
  rw [← String.not_le]
  exact fun hle => hboth.2 (String.le_antisymm hboth.1 hle)

/-- An ascending map is told by the values of its keys. -/
theorem IsAscending.ext {first second : OrderedMap Value} (hfirst : first.IsAscending)
    (hsecond : second.IsAscending) (hget : ∀ key, first.get? key = second.get? key) :
    first = second := by
  have hperm : first.keys.Perm second.keys := by
    apply (List.perm_ext_iff_of_nodup first.distinct second.distinct).mpr
    intro key
    rw [← keys, ← keys, ← isSome_get?, ← isSome_get?, hget]
  refine ext_get? (hperm.eq_of_pairwise ?_ hfirst hsecond) hget
  intro key other _ _ hless hgreater
  exact absurd (String.lt_trans hless hgreater) (String.lt_irrefl key)

end OrderedMap
end Dealias
