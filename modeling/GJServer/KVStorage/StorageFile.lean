import GJServer.Library.Delimited
import GJServer.Net.Proto
import Mathlib.Data.Finmap

/-!
The text of the storage file (`kvstorage/kvstoragefile.cpp`).

`StoreFile` writes one line for each entry, key and value separated by one
space, in the order in which the hash map happens to iterate. `LoadFile` reads
lines, cuts each at its first space, and keeps the first entry of each key.
-/

namespace GJServer.KVStorage

open Library Delimited
open Net (Str)

/-- A `std::unordered_map<std::string, std::string>`. -/
abbrev TMap := Finmap fun _ : Str => Str

/-- One `std::pair` of the map. -/
abbrev Item := Σ _ : Str, Str

/-- `items` is an order in which iterating over `map` may visit its entries. -/
def Iterates (items : List Item) (map : TMap) : Prop := (items : Multiset Item) = map.entries

instance (items : List Item) (map : TMap) : Decidable (Iterates items map) :=
  inferInstanceAs (Decidable (_ = _))

namespace Iterates

theorem exists_order (map : TMap) : ∃ items, Iterates items map := Quot.exists_rep map.entries

theorem nodupKeys {items : List Item} {map : TMap} (h : Iterates items map) :
    items.NodupKeys := by
  have hnodup := map.nodupKeys
  rw [← h] at hnodup
  exact Multiset.coe_nodupKeys.mp hnodup

theorem toFinmap {items : List Item} {map : TMap} (h : Iterates items map) :
    AList.toFinmap ⟨items, h.nodupKeys⟩ = map := Finmap.ext h

theorem lookup {items : List Item} {map : TMap} (h : Iterates items map) (key : Str) :
    map.lookup key = items.dlookup key := by
  conv_lhs => rw [← h.toFinmap]
  rfl

theorem mem_iff {items : List Item} {map : TMap} (h : Iterates items map) (item : Item) :
    item ∈ items ↔ map.lookup item.1 = some item.2 := by
  rw [h.lookup, ← Option.mem_def, List.mem_dlookup_iff h.nodupKeys]

end Iterates

def KV_DELIMITER : UInt8 := 32

/-- The byte `std::endl` writes and `getline` stops at. -/
def NEWLINE : UInt8 := 10

/-- `SplitKeyValue`; `find` is `idxOf?`, and `substr` and `resize` are `drop` and
`take`. -/
def splitKeyValue (line : Str) : Str × Str :=
  match line.idxOf? KV_DELIMITER with
  | none => (line, [])
  | some pos => (line.take pos, line.drop (pos + 1))

/-- `emplace` leaves an entry alone that is there already. -/
def emplace (map : TMap) (pair : Str × Str) : TMap :=
  if pair.1 ∈ map then map else map.insert pair.1 pair.2

/-- The loop of `LoadFile` over the lines of a file that could be opened. -/
def loadText (text : Str) (map : TMap) : TMap :=
  (lines NEWLINE text).foldl (fun map line => emplace map (splitKeyValue line)) map

/-- `LoadFile`. Without a file it logs two messages and throws. -/
def loadFile (path : String) (file : Option Str) (map : TMap) : Except (List String) TMap :=
  match file with
  | none => .error ["failed open kv file: " ++ path,
      "KV Storage file load failed. Filepath: " ++ path ++ " Error: std::exception"]
  | some text => .ok (loadText text map)

/-- What `StoreFile` writes to a stream that does not fail. -/
def storeText (items : List Item) : Str :=
  items.flatMap fun item => item.1 ++ [KV_DELIMITER] ++ item.2 ++ [NEWLINE]

theorem splitKeyValue_eq (line : Str) :
    splitKeyValue line = (before KV_DELIMITER line, after KV_DELIMITER line) := by
  induction line with
  | nil => rfl
  | cons b line ih =>
      by_cases hb : b = KV_DELIMITER
      · simp [splitKeyValue, List.idxOf?_cons, hb]
      · rw [splitKeyValue, List.idxOf?_cons, if_neg (by simpa using hb)]
        rw [splitKeyValue] at ih
        cases hpos : line.idxOf? KV_DELIMITER with
        | none =>
            simp only [hpos, Prod.mk.injEq] at ih
            simp [hb, ← ih.1, ← ih.2]
        | some pos =>
            simp only [hpos, Prod.mk.injEq] at ih
            simp [hb, ← ih.1, ← ih.2]

/-! ### Loading a text -/

@[simp] theorem lookup_emplace (map : TMap) (pair : Str × Str) (key : Str) :
    (emplace map pair).lookup key =
      if key = pair.1 then some ((map.lookup pair.1).getD pair.2) else map.lookup key := by
  unfold emplace
  split
  · next hmem =>
      obtain ⟨v, hv⟩ := Finmap.mem_iff.mp hmem
      split
      · next hkey => rw [hkey, hv, Option.getD_some]
      · rfl
  · next hmem =>
      rw [← Finmap.lookup_eq_none] at hmem
      split
      · next hkey => rw [hkey, Finmap.lookup_insert, hmem, Option.getD_none]
      · next hkey => rw [Finmap.lookup_insert_of_ne _ hkey]

/-- The lines as entries, in the order of the file. -/
def fileItems (text : Str) : List Item :=
  (lines NEWLINE text).map fun line => ⟨(splitKeyValue line).1, (splitKeyValue line).2⟩

/-- An entry already in the map wins over the file, and an earlier line over a
later one. -/
theorem lookup_loadText (text : Str) (map : TMap) (key : Str) :
    (loadText text map).lookup key = (map.lookup key).or ((fileItems text).dlookup key) := by
  unfold loadText fileItems
  induction lines NEWLINE text generalizing map with
  | nil => simp
  | cons line ls ih =>
      rw [List.foldl_cons, ih, lookup_emplace, List.map_cons]
      by_cases hkey : key = (splitKeyValue line).1
      · subst hkey
        rw [if_pos rfl, List.dlookup_cons_eq]
        cases map.lookup (splitKeyValue line).1 <;> rfl
      · rw [if_neg hkey, List.dlookup_cons_ne _ _ hkey]

/-! ### What the file can represent -/

/-- The key ends at the first space and both end with the line. -/
structure Representable (key value : Str) : Prop where
  key_delimiter : KV_DELIMITER ∉ key
  key_newline : NEWLINE ∉ key
  value_newline : NEWLINE ∉ value

instance (key value : Str) : Decidable (Representable key value) :=
  decidable_of_iff (KV_DELIMITER ∉ key ∧ NEWLINE ∉ key ∧ NEWLINE ∉ value)
    ⟨fun ⟨h, h', h''⟩ => ⟨h, h', h''⟩, fun ⟨h, h', h''⟩ => ⟨h, h', h''⟩⟩

def TMap.Representable (map : TMap) : Prop :=
  ∀ key value, map.lookup key = some value → KVStorage.Representable key value

theorem representable_splitKeyValue {line : Str} (hline : NEWLINE ∉ line) :
    Representable (splitKeyValue line).1 (splitKeyValue line).2 := by
  rw [splitKeyValue_eq]
  exact ⟨not_mem_before line, fun h => hline (mem_of_mem_before h),
    fun h => hline (mem_of_mem_after h)⟩

theorem representable_empty : TMap.Representable ∅ := by
  intro key value h
  rw [Finmap.lookup_empty] at h
  cases h

/-- Whatever the file holds, only representable entries come out of it. -/
theorem representable_loadText (text : Str) {map : TMap} (hmap : map.Representable) :
    (loadText text map).Representable := by
  intro key value h
  rw [lookup_loadText, Option.or_eq_some_iff] at h
  rcases h with h | ⟨-, h⟩
  · exact hmap key value h
  · have hmem := List.of_mem_dlookup h
    obtain ⟨line, hline, heq⟩ := List.mem_map.mp hmem
    cases heq
    exact representable_splitKeyValue (not_mem_of_mem_lines hline)

theorem fileItems_storeText {items : List Item}
    (hitems : ∀ item ∈ items, Representable item.1 item.2) :
    fileItems (storeText items) = items := by
  have htext : storeText items =
      unlines NEWLINE (items.map fun item => item.1 ++ KV_DELIMITER :: item.2) := by
    simp [storeText, unlines, List.flatMap_map]
  have hlines : ∀ l ∈ items.map fun item => item.1 ++ KV_DELIMITER :: item.2, NEWLINE ∉ l := by
    intro l hl
    obtain ⟨item, hitem, rfl⟩ := List.mem_map.mp hl
    have hrep := hitems item hitem
    rw [List.mem_append, List.mem_cons]
    rintro (h | h | h)
    · exact hrep.key_newline h
    · cases h
    · exact hrep.value_newline h
  rw [fileItems, htext, lines_unlines hlines, List.map_map]
  refine (List.map_congr_left fun item hitem => ?_).trans (List.map_id items)
  have hkey := (hitems item hitem).key_delimiter
  rw [Function.comp_apply, splitKeyValue_eq, before_append_sep hkey, after_append_sep hkey]
  rfl

/-- A representable map survives being stored and loaded, in whatever order it
is written. -/
theorem loadText_storeText {items : List Item} {map : TMap} (horder : Iterates items map)
    (hmap : map.Representable) : loadText (storeText items) ∅ = map := by
  refine Finmap.ext_lookup fun key => ?_
  rw [lookup_loadText, Finmap.lookup_empty, Option.none_or, horder.lookup,
    fileItems_storeText]
  intro item hitem
  exact hmap item.1 item.2 ((horder.mem_iff item).mp hitem)

/-- A map comes back unchanged from the file exactly when it is representable. -/
theorem loadText_storeText_iff {items : List Item} {map : TMap} (horder : Iterates items map) :
    loadText (storeText items) ∅ = map ↔ map.Representable := by
  constructor
  · intro h
    rw [← h]
    exact representable_loadText _ representable_empty
  · exact loadText_storeText horder

/-- What `LoadFile` has made of a file comes back from the file that `StoreFile` writes. -/
theorem loadFile_reload (path : String) (text : Str) :
    ∃ loaded, loadFile path (some text) ∅ = .ok loaded ∧
      ∀ items, Iterates items loaded → loadFile path (some (storeText items)) ∅ = .ok loaded := by
  refine ⟨loadText text ∅, rfl, fun items horder => ?_⟩
  exact congrArg Except.ok
    (loadText_storeText horder (representable_loadText text representable_empty))

theorem loadFile_storeText_iff (path : String) {map : TMap} {items : List Item}
    (horder : Iterates items map) :
    loadFile path (some (storeText items)) ∅ = .ok map ↔
      ∀ key value, map.lookup key = some value →
        (KV_DELIMITER ∉ key ∧ NEWLINE ∉ key) ∧ NEWLINE ∉ value := by
  rw [loadFile, Except.ok.injEq, loadText_storeText_iff horder]
  constructor
  · intro h key value hvalue
    have hrep := h key value hvalue
    exact ⟨⟨hrep.key_delimiter, hrep.key_newline⟩, hrep.value_newline⟩
  · intro h key value hvalue
    obtain ⟨⟨hdelimiter, hkey⟩, hnewline⟩ := h key value hvalue
    exact ⟨hdelimiter, hkey, hnewline⟩

/-- A map comes back from its file exactly when no key has a delimiter or a newline in it and
no value a newline; a map that was loaded always does. -/
theorem codec_domain :
    (∀ path map items, Iterates items map →
      (loadFile path (some (storeText items)) ∅ = .ok map ↔
        ∀ key value, map.lookup key = some value →
          (KV_DELIMITER ∉ key ∧ NEWLINE ∉ key) ∧ NEWLINE ∉ value)) ∧
      ∀ path text, ∃ loaded, loadFile path (some text) ∅ = .ok loaded ∧
        ∀ items, Iterates items loaded →
          loadFile path (some (storeText items)) ∅ = .ok loaded :=
  ⟨fun path _ _ => loadFile_storeText_iff path, loadFile_reload⟩

theorem codec_domain_blank :
    (loadFile "kvfile.txt" (some (storeText [⟨[], []⟩])) ∅ = .ok (Finmap.singleton [] []) ↔
      ∀ key value, (Finmap.singleton [] [] : TMap).lookup key = some value →
        (KV_DELIMITER ∉ key ∧ NEWLINE ∉ key) ∧ NEWLINE ∉ value) ∧
      loadFile "kvfile.txt" (some (storeText [⟨[107], [118]⟩])) ∅ =
        .ok (Finmap.singleton [107] [118]) := by
  refine ⟨codec_domain.1 "kvfile.txt" (Finmap.singleton [] []) [⟨[], []⟩] rfl, ?_⟩
  obtain ⟨loaded, hloaded, hreload⟩ := codec_domain.2 "kvfile.txt" [107, 32, 118]
  have hmap : loaded = Finmap.singleton [107] [118] := (Except.ok.inj hloaded).symm
  subst hmap
  exact hreload [⟨[107], [118]⟩] (by decide)

end GJServer.KVStorage
