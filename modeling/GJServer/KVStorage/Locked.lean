import GJServer.KVStorage.Storage
import GJServer.Library.ReadersWriter

/-!
The store under `m_mutex` (`kvstorage/kvstorage.cpp`). `Get` and the copy in `UpdateFile`
take the lock shared, `Set` and `Load` take it exclusively, and each of them works on the
map in several steps: `Get` finds an entry and then copies its value, `UpdateFile` copies
one entry after the other, and `Load` enters one line of the file after the other.
Between two such steps other threads run.
-/

namespace GJServer.KVStorage.Locked

open Library Exec Delimited ReadersWriter
open Net (Str)

/-- An order in which a hash map with these entries may be iterated over. -/
structure Order where
  items : TMap → List Item
  iterates : ∀ map, Iterates (items map) map

inductive Operation
  | get (key : Str)
  | set (key value : Str)
  | copy (order : Order)
  | load (text : Str)

/-- What an operation hands to its caller: the result of `Get` with the value, or the copy. -/
inductive Outcome
  | done
  | value (value : Option Str)
  | map (map : TMap)
  deriving DecidableEq

/-- `Get`: the entry that `find` has found is read in a step of its own. -/
def getSection (key : Str) : Section TMap Outcome :=
  .act id fun map =>
    if key ∈ map then .act id fun map => .done (.value (map.lookup key))
    else .done (.value none)

def setSection (key value : Str) : Section TMap Outcome :=
  .act (fun map => map.insert key value) fun _ => .done .done

/-- One entry is copied. -/
def copyEntry (map copied : TMap) (key : Str) : TMap :=
  match map.lookup key with
  | some value => copied.insert key value
  | none => copied

/-- The rest of the copy constructor: the keys still to be visited, and the copy so far. -/
def copyRest : List Str → TMap → Section TMap Outcome
  | [], copied => .done (.map copied)
  | key :: keys, copied =>
      .act id fun map =>
        copyRest keys (copyEntry map copied key)

def copySection (order : Order) : Section TMap Outcome :=
  .act id fun map => copyRest ((order.items map).map Sigma.fst) ∅

/-- The loop of `LoadFile` over the lines of the file. -/
def loadRest : List Str → Section TMap Outcome
  | [] => .done .done
  | line :: lines => .act (fun map => emplace map (splitKeyValue line)) fun _ => loadRest lines

theorem readOnly_getSection (key : Str) : (getSection key).ReadOnly := by
  refine .act fun map => ?_
  split
  · exact .act fun _ => .done _
  · exact .done _

theorem readOnly_copyRest (keys : List Str) (copied : TMap) : (copyRest keys copied).ReadOnly := by
  induction keys generalizing copied with
  | nil => exact .done _
  | cons key keys ih => exact .act fun map => ih _

def call : Operation → Call TMap Outcome
  | .get key => ⟨true, getSection key, fun _ => readOnly_getSection key⟩
  | .set key value => ⟨false, setSection key value, fun h => by cases h⟩
  | .copy order => ⟨true, copySection order, fun _ => .act fun _ => readOnly_copyRest _ _⟩
  | .load text => ⟨false, loadRest (lines NEWLINE text), fun h => by cases h⟩

/-- The operation in one step. -/
def perform (map : TMap) : Operation → TMap × Outcome
  | .get key => (map, .value (map.lookup key))
  | .set key value => (map.insert key value, .done)
  | .copy _ => (map, .map map)
  | .load text => (loadText text map, .done)

theorem run_getSection (key : Str) (map : TMap) :
    (getSection key).run map = (map, .value (map.lookup key)) := by
  simp only [getSection, Section.run, id_eq]
  split
  · rfl
  · next hkey => rw [Finmap.lookup_eq_none.mpr hkey, Section.run]

theorem lookup_copyEntry {map copied : TMap} (key : Str)
    (hcopied : ∀ key value, copied.lookup key = some value → map.lookup key = some value)
    (key' : Str) : (copyEntry map copied key).lookup key' =
      if key' = key then map.lookup key else copied.lookup key' := by
  unfold copyEntry
  cases hvalue : map.lookup key with
  | some value =>
      by_cases hkey : key' = key
      · rw [if_pos hkey, hkey, Finmap.lookup_insert]
      · rw [if_neg hkey, Finmap.lookup_insert_of_ne _ hkey]
  | none =>
      by_cases hkey : key' = key
      · rw [if_pos hkey, hkey, ← Option.not_isSome_iff_eq_none, Option.isSome_iff_exists]
        rintro ⟨value, hfound⟩
        cases hvalue.symm.trans (hcopied key value hfound)
      · rw [if_neg hkey]

/-- The entries that have been visited are in the copy, and nothing else is. -/
theorem run_copyRest (keys : List Str) (copied map : TMap)
    (hcopied : ∀ key value, copied.lookup key = some value → map.lookup key = some value)
    (hkeys : ∀ key, key ∈ keys ∨ copied.lookup key = map.lookup key) :
    (copyRest keys copied).run map = (map, .map map) := by
  induction keys generalizing copied with
  | nil =>
      have hall : copied = map := Finmap.ext_lookup fun key =>
        (hkeys key).resolve_left List.not_mem_nil
      rw [copyRest, Section.run, hall]
  | cons key keys ih =>
      have hlookup := lookup_copyEntry key hcopied
      refine ih (copyEntry map copied key) (fun key' value => ?_) fun key' => ?_
      · rw [hlookup]
        split
        · next hkey => exact hkey ▸ id
        · exact hcopied key' value
      · rw [hlookup]
        split
        · next hkey => exact Or.inr (by rw [hkey])
        · next hkey =>
            refine (hkeys key').imp_left fun hmem => ?_
            exact (List.mem_cons.mp hmem).resolve_left hkey

theorem run_copySection (order : Order) (map : TMap) :
    (copySection order).run map = (map, .map map) := by
  refine run_copyRest _ ∅ map (fun key value h => ?_) fun key => ?_
  · rw [Finmap.lookup_empty] at h
    cases h
  · cases hvalue : map.lookup key with
    | none => exact Or.inr (Finmap.lookup_empty key)
    | some value =>
        have hmem := ((order.iterates map).mem_iff ⟨key, value⟩).mpr hvalue
        exact Or.inl (List.mem_map_of_mem hmem)

theorem run_loadRest (ls : List Str) (map : TMap) :
    (loadRest ls).run map =
      (ls.foldl (fun map line => emplace map (splitKeyValue line)) map, .done) := by
  induction ls generalizing map with
  | nil => rfl
  | cons line ls ih => exact ih _

/-- Uninterrupted, the sections do what the functions say. -/
theorem run_call (op : Operation) (map : TMap) : (call op).body.run map = perform map op := by
  cases op with
  | get key => exact run_getSection key map
  | set key value => rfl
  | copy order => exact run_copySection order map
  | load text => exact run_loadRest (lines NEWLINE text) map

/-! ### Any number of threads -/

variable {nthreads : ℕ}

abbrev History (nthreads : ℕ) := List (Entry (Fin nthreads) Operation Outcome)

/-- The map after the operations, one after the other. -/
def performAll (map : TMap) (history : History nthreads) : TMap :=
  history.foldl (fun map entry => (perform map entry.op).1) map

/-- Key and value of the sets of a history. -/
def setsOf (history : History nthreads) : List (Str × Str) :=
  history.filterMap fun entry => match entry.op with
    | .set key value => some (key, value)
    | _ => none

theorem after_eq (map : TMap) (history : History nthreads) :
    ReadersWriter.after call map history = performAll map history := by
  unfold ReadersWriter.after performAll
  simp only [run_call]

/-- Without another `Load`, the history leaves the map that its sets make. -/
theorem performAll_eq_applySets (map : TMap) {history : History nthreads}
    (hload : ∀ entry ∈ history, ∀ text, entry.op ≠ .load text) :
    performAll map history = applySets map (setsOf history) := by
  induction history generalizing map with
  | nil => rfl
  | cons entry history ih =>
      obtain ⟨hentry, hrest⟩ := List.forall_mem_cons.mp hload
      obtain ⟨thread, op, result⟩ := entry
      show performAll (perform map op).1 history = _
      rw [ih _ hrest]
      cases op with
      | get key => rfl
      | set key value => rfl
      | copy order => rfl
      | load text => exact absurd rfl (hentry text)

/-- What the calls of any number of threads return, and what they leave, is what they
would in the order in which they give the lock back: a value is that of the last earlier
`Set` of its key, and a copy holds all earlier sets and nothing of a later one, although
it is made entry by entry. -/
structure Atomic (initial : TMap) (s : State (Fin nthreads) Operation TMap Outcome) : Prop where
  get : ∀ pre i key result post, s.finished = pre ++ ⟨i, .get key, result⟩ :: post →
    result = .value ((performAll initial pre).lookup key)
  copy : ∀ pre i order result post, s.finished = pre ++ ⟨i, .copy order, result⟩ :: post →
    result = .map (performAll initial pre)
  map : (∀ i op rest, s.threads i = .inside op rest → (call op).shared = true) →
    s.object = performAll initial s.finished
  sets : ∀ pre, pre <+: s.finished → (∀ entry ∈ pre, ∀ text, entry.op ≠ .load text) →
    performAll initial pre = applySets initial (setsOf pre)

theorem sections_atomic (initial : TMap) (events : List (Event (Fin nthreads) Operation))
    (s : State (Fin nthreads) Operation TMap Outcome)
    (hrun : exec (step call) (start initial) events = some s) : Atomic initial s := by
  obtain ⟨hserial, hobject⟩ := serial_of_run hrun
  have hbefore (pre : History nthreads) (entry : Entry (Fin nthreads) Operation Outcome)
      (post : History nthreads) (hsplit : s.finished = pre ++ entry :: post) :
      entry.result = (perform (performAll initial pre) entry.op).2 := by
    rw [hserial pre entry post hsplit, run_call, after_eq]
  exact
    { get := fun pre i key result post hsplit => hbefore pre _ post hsplit
      copy := fun pre i order result post hsplit => hbefore pre _ post hsplit
      map := fun hreaders => (hobject hreaders).trans (after_eq ..)
      sets := fun pre _ hload => performAll_eq_applySets initial hload }

theorem sections_atomic_getAndSet :
    ∃ s, exec (step call) (start ∅ : State (Fin 2) Operation TMap Outcome)
        [.call 1 (.get [107]), .lock 1, .call 0 (.set [107] [118]), .act 1, .unlock 1, .lock 0,
          .call 1 (.get [107]), .act 0, .unlock 0, .lock 1, .act 1, .act 1, .unlock 1] =
          some s ∧
      s.finished = [⟨1, .get [107], .value none⟩, ⟨0, .set [107] [118], .done⟩,
        ⟨1, .get [107], .value (some [118])⟩] ∧ Atomic ∅ s := by
  have hrun : ∃ s, exec (step call) (start ∅ : State (Fin 2) Operation TMap Outcome)
      [.call 1 (.get [107]), .lock 1, .call 0 (.set [107] [118]), .act 1, .unlock 1, .lock 0,
        .call 1 (.get [107]), .act 0, .unlock 0, .lock 1, .act 1, .act 1, .unlock 1] =
        some s ∧
      s.finished = [⟨1, .get [107], .value none⟩, ⟨0, .set [107] [118], .done⟩,
        ⟨1, .get [107], .value (some [118])⟩] := ⟨_, rfl, rfl⟩
  obtain ⟨s, hs, hfinished⟩ := hrun
  exact ⟨s, hs, hfinished, sections_atomic ∅ _ s hs⟩

end GJServer.KVStorage.Locked
