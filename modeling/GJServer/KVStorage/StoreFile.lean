import GJServer.KVStorage.StorageSwap

/-!
`StoreFile` on a disk that may be full (`TKVStorageFile::StoreFile` of
`kvstorage/kvstoragefile.cpp`). A `std::ofstream` whose exception mask is empty
records an output that fails in its state and ignores all that follow. `StoreFile`
waits for an exception that is never thrown, and looks at the state no more once the
file is open.
-/

namespace GJServer.KVStorage

open Library Exec
open Net (Str)

/-- How many bytes the file takes of each insertion, counted from the first, and how
many of its bytes are still there when it has been closed. -/
structure Faults where
  room : ℕ → ℕ
  kept : ℕ

/-- What an open `std::ofstream` has brought into its file, whether its state is still
good, and the number of insertions so far. -/
structure OFStream where
  content : Str
  good : Bool
  insertions : ℕ
  deriving DecidableEq

namespace OFStream

/-- The stream behind a successful `open`, which has emptied the file. -/
def empty : OFStream := ⟨[], true, 0⟩

/-- `<<`. What the file does not take of it is lost and spoils the state. -/
def insert (faults : Faults) (stream : OFStream) (bytes : Str) : OFStream where
  content :=
    if stream.good then stream.content ++ bytes.take (faults.room stream.insertions)
    else stream.content
  good := stream.good && decide (bytes.length ≤ faults.room stream.insertions)
  insertions := stream.insertions + 1

/-- The destructor closes the file, and nobody learns whether that went well. -/
def close (faults : Faults) (stream : OFStream) : Str := stream.content.take faults.kept

end OFStream

/-- What `StoreFile` returns, the file it leaves and the messages it logs as errors. -/
structure Stored where
  returned : Bool
  file : Option Str
  errors : List String
  deriving DecidableEq

/-- One round of the loop; `std::endl` inserts a newline and flushes it. -/
def storeItem (faults : Faults) (stream : OFStream) (item : Item) : OFStream :=
  let stream := stream.insert faults item.1
  let stream := stream.insert faults [KV_DELIMITER]
  let stream := stream.insert faults item.2
  stream.insert faults [NEWLINE]

/-- `StoreFile`, where `file` is what `path` held before. The handler of the exceptions
is left out: nothing here throws. -/
def storeFile (path : String) (isOpen : Bool) (faults : Faults) (items : List Item)
    (file : Option Str) : Stored :=
  if isOpen then
    let stream := items.foldl (storeItem faults) OFStream.empty
    { returned := true, file := some (stream.close faults), errors := [] }
  else
    { returned := false, file := file, errors := ["KV file create failed. Path: " ++ path] }

/-- The insertions of the loop, in order. -/
def insertions (items : List Item) : List Str :=
  items.flatMap fun item => [item.1, [KV_DELIMITER], item.2, [NEWLINE]]

theorem flatten_insertions (items : List Item) :
    (insertions items).flatten = storeText items := by
  induction items with
  | nil => rfl
  | cons item items ih =>
      rw [insertions, List.flatMap_cons, List.flatten_append, ← insertions, ih, storeText,
        storeText, List.flatMap_cons]
      simp

theorem foldl_storeItem (faults : Faults) (items : List Item) (stream : OFStream) :
    items.foldl (storeItem faults) stream =
      (insertions items).foldl (OFStream.insert faults) stream := by
  induction items generalizing stream with
  | nil => rfl
  | cons item items ih =>
      have hsplit : insertions (item :: items) =
          [item.1, [KV_DELIMITER], item.2, [NEWLINE]] ++ insertions items := rfl
      rw [List.foldl_cons, ih, hsplit, List.foldl_append]
      rfl

/-- The file takes all of the insertions that begin with number `n`. -/
def Faults.Take (faults : Faults) : List Str → ℕ → Prop
  | [], _ => True
  | bytes :: rest, n => bytes.length ≤ faults.room n ∧ faults.Take rest (n + 1)

namespace OFStream

variable {faults : Faults} {stream : OFStream}

theorem insert_of_le {bytes : Str} (hgood : stream.good = true)
    (hle : bytes.length ≤ faults.room stream.insertions) :
    stream.insert faults bytes =
      ⟨stream.content ++ bytes, true, stream.insertions + 1⟩ := by
  rw [insert, hgood, if_pos rfl, List.take_of_length_le hle, decide_eq_true hle]
  rfl

/-- A stream whose state is bad stays as it is. -/
theorem content_foldl_of_bad (all : List Str) (hbad : stream.good = false) :
    (all.foldl (insert faults) stream).content = stream.content := by
  induction all generalizing stream with
  | nil => rfl
  | cons bytes all ih =>
      have hnext : (stream.insert faults bytes).good = false := by
        rw [insert, hbad, Bool.false_and]
      rw [List.foldl_cons, ih hnext, insert, hbad]
      rfl

theorem content_foldl_of_take {all : List Str} (hgood : stream.good = true)
    (htake : faults.Take all stream.insertions) :
    (all.foldl (insert faults) stream).content = stream.content ++ all.flatten := by
  induction all generalizing stream with
  | nil => exact (List.append_nil _).symm
  | cons bytes all ih =>
      obtain ⟨hle, hrest⟩ := htake
      rw [List.foldl_cons, insert_of_le hgood hle, ih rfl hrest, List.flatten_cons,
        List.append_assoc]

theorem length_foldl_of_not_take {all : List Str} (hgood : stream.good = true)
    (htake : ¬faults.Take all stream.insertions) :
    (all.foldl (insert faults) stream).content.length <
      stream.content.length + all.flatten.length := by
  induction all generalizing stream with
  | nil => exact absurd trivial htake
  | cons bytes all ih =>
      rw [List.foldl_cons, List.flatten_cons, List.length_append]
      by_cases hle : bytes.length ≤ faults.room stream.insertions
      · have hrest : ¬faults.Take all (stream.insertions + 1) := fun h => htake ⟨hle, h⟩
        rw [insert_of_le hgood hle]
        refine (ih rfl hrest).trans_eq ?_
        rw [List.length_append, Nat.add_assoc]
      · -- from here on the state is bad, and at least one byte is missing
        have hbad : (stream.insert faults bytes).good = false := by
          rw [insert, decide_eq_false hle, Bool.and_false]
        rw [content_foldl_of_bad all hbad, insert, hgood, if_pos rfl, List.length_append,
          List.length_take]
        omega

end OFStream

/-- If `StoreFile` returns `true`, the file holds every entry. -/
def StoresWhole (path : String) (isOpen : Bool) (faults : Faults) (items : List Item)
    (file : Option Str) : Prop :=
  (storeFile path isOpen faults items file).returned = true →
    (storeFile path isOpen faults items file).file = some (storeText items)

/-- If `StoreFile` returns `true` and `ChangeStorageFile` meets no fault, every entry is
at `m_filepath`. -/
def SwapsWhole (path : String) (isOpen : Bool) (faults : Faults) (items : List Item)
    (s : Swap.State) : Prop :=
  let stored := storeFile (path ++ ".new") isOpen faults items s.disk.new
  stored.returned = true → ∀ s', exec (Swap.step path)
      { s with disk := { s.disk with new := stored.file }, status := .running .renameLive }
      [.ok, .ok, .ok] = some s' → s'.disk.live = some (storeText items)

theorem content_storeItems (faults : Faults) (items : List Item) :
    (items.foldl (storeItem faults) OFStream.empty).close faults = storeText items ↔
      faults.Take (insertions items) 0 ∧ (storeText items).length ≤ faults.kept := by
  have hgood : OFStream.empty.good = true := rfl
  rw [foldl_storeItem, OFStream.close]
  by_cases htake : faults.Take (insertions items) 0
  · rw [OFStream.content_foldl_of_take hgood htake, flatten_insertions]
    exact List.take_eq_self_iff _ |>.trans (and_iff_right htake).symm
  · have hlt := OFStream.length_foldl_of_not_take hgood htake
    rw [flatten_insertions] at hlt
    refine iff_of_false (fun h => ?_) fun h => htake h.1
    have hlen := congrArg List.length h
    rw [List.length_take] at hlen
    have hempty : OFStream.empty.content.length = 0 := rfl
    omega

theorem storesWhole_iff (path : String) (isOpen : Bool) (faults : Faults)
    (items : List Item) (file : Option Str) :
    StoresWhole path isOpen faults items file ↔
      (isOpen = true → faults.Take (insertions items) 0 ∧
        (storeText items).length ≤ faults.kept) := by
  cases isOpen with
  | false => exact iff_of_true nofun nofun
  | true =>
      rw [← content_storeItems]
      simp [StoresWhole, storeFile]

theorem swapsWhole_of_storesWhole {path : String} {isOpen : Bool} {faults : Faults}
    {items : List Item} {s : Swap.State}
    (h : StoresWhole (path ++ ".new") isOpen faults items s.disk.new) :
    SwapsWhole path isOpen faults items s := by
  intro hreturned s' hrun
  have hfile : (storeFile (path ++ ".new") isOpen faults items s.disk.new).file =
      some (storeText items) := h hreturned
  cases hlive : s.disk.live with
  | none => simp [exec_cons, Swap.step, Swap.stepOk, Swap.State.giveUp, hlive] at hrun
  | some text =>
      simp only [exec_cons, exec_nil, Swap.step, Swap.stepOk, Swap.State.goto, hlive, hfile,
        Option.bind_some, Option.some.injEq] at hrun
      subst hrun
      rfl

/-- `StoreFile` tells the truth, and no truncated file is swapped in, exactly when the
file cannot be opened, or takes every insertion whole and keeps all of it when it is
closed. -/
theorem storeFile_truthful_iff (path : String) (isOpen : Bool) (faults : Faults)
    (items : List Item) (s : Swap.State) :
    (StoresWhole (path ++ ".new") isOpen faults items s.disk.new ∧
        SwapsWhole path isOpen faults items s) ↔
      (isOpen = true → faults.Take (insertions items) 0 ∧
        (storeText items).length ≤ faults.kept) := by
  rw [← storesWhole_iff (path ++ ".new") isOpen faults items s.disk.new]
  exact and_iff_left_of_imp swapsWhole_of_storesWhole

/-- A disk on which every insertion finds room for one byte only. -/
def fullDisk : Faults := ⟨fun _ => 1, 100⟩

theorem truncated_is_swapped_in :
    ¬StoresWhole "kvfile.txt.new" true fullDisk [⟨[107], [97, 98]⟩] none ∧
      ¬SwapsWhole "kvfile.txt" true fullDisk [⟨[107], [97, 98]⟩] (Swap.start [] none none) := by
  constructor
  · intro h
    exact absurd (h rfl) (by decide)
  · intro h
    exact absurd (h rfl _ rfl) (by decide)

end GJServer.KVStorage
