import GJServer.KVStorage.StorageFile

/-!
The store the server keeps in memory (`kvstorage/kvstorage.h`, `kvstorage.cpp`):
the map and the flag that says that the file may be behind it.
-/

namespace GJServer.KVStorage

open Net (Str)

structure TKVStorage where
  map : TMap
  isMapDirty : Bool
  deriving DecidableEq

namespace TKVStorage

/-- The members as the constructor initializes them. -/
def make : TKVStorage := ⟨∅, false⟩

def load (storage : TKVStorage) (path : String) (file : Option Str) :
    Except (List String) TKVStorage :=
  (loadFile path file storage.map).map fun map => { storage with map := map }

/-- `Get`; `none` is the result `false`, which leaves `value` alone. -/
def get (storage : TKVStorage) (key : Str) : Option Str := storage.map.lookup key

/-- The part of `Set` under the lock. -/
def insertOrAssign (storage : TKVStorage) (key value : Str) : TKVStorage :=
  { storage with map := storage.map.insert key value }

/-- The part of `Set` after the lock is released. -/
def markDirty (storage : TKVStorage) : TKVStorage := { storage with isMapDirty := true }

def set (storage : TKVStorage) (key value : Str) : TKVStorage :=
  (storage.insertOrAssign key value).markDirty

end TKVStorage

/-! ### Sequences of sets -/

/-- The map after the sets, in order. -/
def applySets (map : TMap) (sets : List (Str × Str)) : TMap :=
  sets.foldl (fun map pair => map.insert pair.1 pair.2) map

/-- The value of the last set of `key`. -/
def lastSet : List (Str × Str) → Str → Option Str
  | [], _ => none
  | pair :: sets, key => (lastSet sets key).or (if key = pair.1 then some pair.2 else none)

@[simp] theorem applySets_nil (map : TMap) : applySets map [] = map := rfl

theorem applySets_append (map : TMap) (sets sets' : List (Str × Str)) :
    applySets map (sets ++ sets') = applySets (applySets map sets) sets' :=
  List.foldl_append

theorem applySets_concat (map : TMap) (sets : List (Str × Str)) (key value : Str) :
    applySets map (sets ++ [(key, value)]) = (applySets map sets).insert key value :=
  applySets_append map sets _

theorem lookup_applySets (map : TMap) (sets : List (Str × Str)) (key : Str) :
    (applySets map sets).lookup key = (lastSet sets key).or (map.lookup key) := by
  induction sets generalizing map with
  | nil => rfl
  | cons pair sets ih =>
      show (applySets (map.insert pair.1 pair.2) sets).lookup key = _
      rw [ih, lastSet, Option.or_assoc]
      congr 1
      split
      · next hkey =>
          rw [hkey, Finmap.lookup_insert]
          rfl
      · next hkey => rw [Finmap.lookup_insert_of_ne _ hkey, Option.none_or]

theorem lastSet_append (sets sets' : List (Str × Str)) (key : Str) :
    lastSet (sets ++ sets') key = (lastSet sets' key).or (lastSet sets key) := by
  induction sets with
  | nil => exact (Option.or_none).symm
  | cons pair sets ih => rw [List.cons_append, lastSet, ih, Option.or_assoc, lastSet]

theorem lastSet_eq_none_iff {sets : List (Str × Str)} {key : Str} :
    lastSet sets key = none ↔ ∀ pair ∈ sets, pair.1 ≠ key := by
  induction sets with
  | nil => simp [lastSet]
  | cons pair sets ih =>
      rw [lastSet, Option.or_eq_none_iff, ih, List.forall_mem_cons, and_comm]
      refine and_congr_left fun _ => ?_
      by_cases hkey : key = pair.1
      · simp [hkey]
      · simp [hkey, Ne.symm hkey]

/-- The last set of a key is the one with no set of that key behind it. -/
theorem lastSet_eq_some_iff {sets : List (Str × Str)} {key value : Str} :
    lastSet sets key = some value ↔
      ∃ pre post, sets = pre ++ (key, value) :: post ∧ ∀ pair ∈ post, pair.1 ≠ key := by
  induction sets with
  | nil => simp [lastSet]
  | cons pair sets ih =>
      rw [lastSet, Option.or_eq_some_iff]
      constructor
      · rintro (h | ⟨hnone, h⟩)
        · obtain ⟨pre, post, rfl, hpost⟩ := ih.mp h
          exact ⟨pair :: pre, post, rfl, hpost⟩
        · by_cases hkey : key = pair.1
          · rw [if_pos hkey, Option.some.injEq] at h
            subst hkey h
            exact ⟨[], sets, rfl, lastSet_eq_none_iff.mp hnone⟩
          · rw [if_neg hkey] at h
            cases h
      · rintro ⟨pre, post, h, hpost⟩
        cases pre with
        | nil =>
            obtain ⟨rfl, rfl⟩ := List.cons_eq_cons.mp h
            exact Or.inr ⟨lastSet_eq_none_iff.mpr hpost, by simp⟩
        | cons p pre =>
            obtain ⟨rfl, rfl⟩ := List.cons_eq_cons.mp h
            exact Or.inl (ih.mpr ⟨pre, post, rfl, hpost⟩)

theorem representable_applySets {map : TMap} {sets : List (Str × Str)}
    (hmap : map.Representable) (hsets : ∀ pair ∈ sets, Representable pair.1 pair.2) :
    (applySets map sets).Representable := by
  intro key value h
  rw [lookup_applySets, Option.or_eq_some_iff] at h
  rcases h with h | ⟨-, h⟩
  · obtain ⟨pre, post, rfl, -⟩ := lastSet_eq_some_iff.mp h
    exact hsets (key, value) (by simp)
  · exact hmap key value h

end GJServer.KVStorage
