import GJServer.Client.CommandFile
import GJServer.System.Isolation

/-!
Command files as programs. A file is a script of lines, each of which gets or sets a key,
and what a get prints is all that is seen of it. Clients that run scripts at the same time
print what the lines would print one after the other, in some order that keeps the order of
each script.
-/

namespace GJServer.System.Scripts

open Library Exec Delimited Linearization Net KVStorage Client

variable {nclients : ℕ}

/-- What `ProcessCommand` prints of a get. -/
def report (key value : Str) : Str :=
  "<<< Client: Key: ".toUTF8.toList ++ key ++ " Value: ".toUTF8.toList ++ value ++
    ">>>\n".toUTF8.toList

def printed (command : TCommandPair) (result : Result) : Str :=
  match (conclude command result).printed with
  | some (key, value) => report key value
  | none => []

/-- What a client has printed that has got these results. -/
def stdout (commands : List TCommandPair) (results : List Result) : Str :=
  (List.zipWith printed commands results).flatten

/-- The commands that `ProcessFile` runs. -/
def commandsIn (path : String) (text : Str) : List TCommandPair :=
  (Client.loadFile path (some text) []).comands

/-- The commands of each client. -/
def scripts (path : String) (texts : Fin nclients → Str) : Fin nclients → List TCommandPair :=
  fun i => commandsIn path (texts i)

/-- A line that `Parse` takes for a get or a set, whose message has room in a buffer. -/
inductive Runnable : Str → Prop
  | get (separator : UInt8) {key : Str} (hsmall : Message.Small ⟨ECMD.READ_REQUEST, key⟩) :
      Runnable (GET ++ separator :: key)
  | set (separator : UInt8) {args : Str}
      (hsmall : Message.Small ⟨ECMD.WRITE_REQUEST, setContent args⟩) :
      Runnable (SET ++ separator :: args)

/-- What a line does to a map, and what it prints. The byte behind the keyword is skipped,
whatever it is. -/
def runLine (map : TMap) (line : Str) : TMap × Str :=
  let args := line.drop 4
  if line.take 3 = GET then (map, report args ((map.lookup args).getD []))
  else if line.take 3 = SET then
    let pair := splitKeyValue args
    (map.insert pair.1 pair.2, [])
  else (map, [])

/-- One line after the other, and what each client prints. -/
def runLines (map : TMap) : List (Fin nclients × Str) → TMap × List (Fin nclients × Str)
  | [] => (map, [])
  | (i, line) :: schedule =>
      let ran := runLine map line
      let rest := runLines ran.1 schedule
      (rest.1, (i, ran.2) :: rest.2)

/-- The line of an operation. -/
def lineOf (texts : Fin nclients → Str) (a : Op nclients) : Fin nclients × Str :=
  (a.1, ((commandLines (texts a.1))[a.2]?).getD [])

/-- The scripts run line by line in the order `order`: each client has printed a beginning of
what its lines print there, and all of it when every client is done. -/
structure Interleaved (path : String) (file : Str) (texts : Fin nclients → Str)
    (c : Bytes.State nclients) (order : List (Op nclients)) : Prop where
  nodup : order.Nodup
  lines : ∀ i, own i (order.map (lineOf texts)) <+: commandLines (texts i)
  realTime : ∀ a b, Before c.log (.ret a) (.call b) → b ∈ order → Before order a b
  map : c.server.storage.map = (runLines (loadText file ∅) (order.map (lineOf texts))).1
  printed : ∀ i, stdout (scripts path texts i) (c.links i).results <+:
    (own i (runLines (loadText file ∅) (order.map (lineOf texts))).2).flatten
  finished : (∀ i, (c.links i).todo = []) → ∀ i,
    own i (order.map (lineOf texts)) = commandLines (texts i) ∧
      stdout (scripts path texts i) (c.links i).results =
        (own i (runLines (loadText file ∅) (order.map (lineOf texts))).2).flatten

/-! ### One line -/

/-- The line says what the command does. -/
def Means (line : Str) (command : TCommandPair) : Prop :=
  ∀ map, runLine map line =
    (applySets map (pairOf command).toList, printed command (resultOn map command))

theorem means_get (separator : UInt8) (key : Str) :
    Means (GET ++ separator :: key) ⟨ECMD.READ_REQUEST, key⟩ := fun _ => rfl

theorem means_set (separator : UInt8) (args : Str) :
    Means (SET ++ separator :: args) ⟨ECMD.WRITE_REQUEST, args⟩ := fun _ => rfl

theorem Runnable.parse {line : Str} (h : Runnable line) :
    ∃ command, TCommandPair.parse line = .ok command ∧ Sendable command ∧
      Means line command := by
  cases h with
  | @get separator key hsmall =>
      exact ⟨_, TCommandPair.parse_get separator key, .get hsmall, means_get separator key⟩
  | @set separator args hsmall =>
      exact ⟨_, TCommandPair.parse_set separator args, .set hsmall, means_set separator args⟩

theorem Runnable.not_keyword {line : Str} (h : Runnable line) : ¬(line = GET ∨ line = SET) := by
  cases h with
  | get => simp [GET, SET]
  | set => simp [GET, SET]

/-- A script is loaded, one command for each of its lines. -/
theorem loadFile_runnable (path : String) {text : Str}
    (htext : ∀ line ∈ commandLines text, Runnable line) :
    (Client.loadFile path (some text) []).thrown = none ∧
      List.Forall₂ (fun line command => TCommandPair.parse line = .ok command)
        (commandLines text) (commandsIn path text) := by
  obtain ⟨pairs, happends, hcases⟩ := loadLines_cases [] (Delimited.lines NEWLINE text)
  rw [List.nil_append] at happends
  rcases hcases with ⟨hthrown, hparse⟩ | ⟨-, line, hline, hkeyword⟩
  · refine ⟨hthrown, ?_⟩
    rw [commandsIn, Client.loadFile, happends]
    exact hparse
  · refine absurd hkeyword (htext line (List.mem_filter.mpr ⟨hline, ?_⟩)).not_keyword
    rcases hkeyword with rfl | rfl <;> rfl

/-- The commands of a script, line by line. -/
theorem getElem?_commandsIn (path : String) {text : Str}
    (htext : ∀ line ∈ commandLines text, Runnable line) {k : ℕ} {command : TCommandPair}
    (hcommand : (commandsIn path text)[k]? = some command) :
    Sendable command ∧ ∃ line, (commandLines text)[k]? = some line ∧ Means line command := by
  obtain ⟨-, hparse⟩ := loadFile_runnable path htext
  have hk := (List.getElem?_eq_some_iff.mp hcommand).1
  have hk' : k < (commandLines text).length := hparse.length_eq ▸ hk
  have hline := List.getElem?_eq_getElem hk'
  obtain ⟨command', hparse', hsendable, hmeans⟩ := (htext _ (List.mem_of_getElem? hline)).parse
  obtain rfl : command = command' := by
    have hpair := (List.forall₂_iff_get.mp hparse).2 k hk' hk
    rw [List.get_eq_getElem, List.get_eq_getElem, hparse'] at hpair
    rw [(List.getElem?_eq_some_iff.mp hcommand).2] at hpair
    exact (Except.ok.inj hpair).symm
  exact ⟨hsendable, _, hline, hmeans⟩

theorem sendable_scripts (path : String) {texts : Fin nclients → Str}
    (htexts : ∀ i, ∀ line ∈ commandLines (texts i), Runnable line) :
    ∀ i, ∀ command ∈ scripts path texts i, Sendable command := by
  intro i command hmem
  obtain ⟨k, hk⟩ := List.mem_iff_getElem?.mp hmem
  exact (getElem?_commandsIn path (htexts i) hk).1

/-! ### One line after the other -/

theorem runLines_concat (map : TMap) (schedule : List (Fin nclients × Str)) (i : Fin nclients)
    (line : Str) :
    let before := runLines map schedule
    runLines map (schedule ++ [(i, line)]) =
      ((runLine before.1 line).1, before.2 ++ [(i, (runLine before.1 line).2)]) := by
  induction schedule generalizing map with
  | nil => rfl
  | cons entry schedule ih =>
      obtain ⟨j, line'⟩ := entry
      simp only [List.cons_append, runLines, ih]

variable {commands : Fin nclients → List TCommandPair} {texts : Fin nclients → Str}
variable {file : Str} {order : List (Op nclients)} {i : Fin nclients}

/-- What the operation prints at its turn. -/
def output (file : Str) (commands : Fin nclients → List TCommandPair)
    (order : List (Op nclients)) (a : Op nclients) : Str :=
  match (commands a.1)[a.2]? with
  | some command =>
      printed command (resultOn (applySets (loadText file ∅) (setsOf commands (prior order a)))
        command)
  | none => []

/-- Running the lines is what the commands do one after the other. -/
theorem runLines_order (hnodup : order.Nodup)
    (hlines : ∀ a ∈ order, ∃ command, (commands a.1)[a.2]? = some command ∧
      Means (lineOf texts a).2 command) :
    runLines (loadText file ∅) (order.map (lineOf texts)) =
      (applySets (loadText file ∅) (setsOf commands order),
        order.map fun a => (a.1, output file commands order a)) := by
  induction order using List.reverseRecOn with
  | nil => rfl
  | append_singleton order x ih =>
      obtain ⟨hnodup', -, hdisjoint⟩ := List.nodup_append.mp hnodup
      have hx : x ∉ order := fun hmem => hdisjoint x hmem x (List.mem_singleton_self x) rfl
      obtain ⟨command, hcommand, hmeans⟩ := hlines x (by simp)
      have hlineOf : lineOf texts x = (x.1, (lineOf texts x).2) := rfl
      rw [List.map_append, List.map_singleton, hlineOf, runLines_concat,
        ih hnodup' fun a ha => hlines a (List.mem_append_left _ ha)]
      dsimp only
      rw [hmeans, List.map_append, List.map_singleton]
      refine Prod.ext ?_ ?_
      · rw [setsOf_concat, hcommand, Option.bind_some, applySets_append]
      · dsimp only
        congr 1
        · refine List.map_congr_left fun a ha => ?_
          rw [output, output, prior_append_of_mem ha]
        · rw [output, hcommand, prior_concat_self hx]

theorem map_range_eq_take {l : List Str} {m : ℕ} (hm : m ≤ l.length) :
    ((List.range m).map fun k => (l[k]?).getD []) = l.take m := by
  refine List.ext_getElem? fun k => ?_
  rw [List.getElem?_map, List.getElem?_take]
  by_cases hk : k < m
  · rw [List.getElem?_range hk, if_pos hk, Option.map_some,
      List.getElem?_eq_getElem (hk.trans_le hm), Option.getD_some]
  · rw [List.getElem?_eq_none (by rw [List.length_range]; omega), if_neg hk]
    rfl

/-! ### The scripts of all clients -/

theorem le_length_of_own {a : System.State nclients} (ha : Inv file commands a) {m : ℕ}
    (hm : own i (commits a.log) = List.range m) : m ≤ (commands i).length := by
  cases m with
  | zero => exact Nat.zero_le _
  | succ m =>
      have hmem : (i, m) ∈ commits a.log := mem_own.mp (hm ▸ List.self_mem_range_succ)
      exact ((ha.logged i).called m (ha.orderly.called hmem)).2

/-- What the client has printed, command by command. -/
theorem stdout_eq {c : Bytes.State nclients} {a : System.State nclients}
    (ha : Inv file commands a) (hresults : (c.links i).results = (a.links i).results) :
    stdout (commands i) (c.links i).results =
      ((List.range (c.links i).results.length).map fun k =>
        output file commands (commits a.log) (i, k)).flatten := by
  rw [stdout]
  congr 1
  refine List.ext_getElem? fun k => ?_
  rw [List.getElem?_zipWith, List.getElem?_map]
  by_cases hk : k < (c.links i).results.length
  · have hresult := List.getElem?_eq_getElem hk
    have hresult' : (a.links i).results[k]? = some (c.links i).results[k] := hresults ▸ hresult
    obtain ⟨-, command, hcommand, -⟩ := (ha.logged i).answered k _ hresult'
    obtain ⟨-, heq⟩ := result_eq ha hresult' hcommand
    rw [List.getElem?_range hk, hresult, hcommand, Option.map_some, heq, output, hcommand]
  · have hrange : (List.range (c.links i).results.length)[k]? = none := by
      rw [List.getElem?_eq_none_iff, List.length_range]
      exact Nat.not_lt.mp hk
    have hresult : (c.links i).results[k]? = none := List.getElem?_eq_none (Nat.not_lt.mp hk)
    rw [hrange, hresult]
    cases (commands i)[k]? <;> rfl

section Order

variable {path : String} (htexts : ∀ i, ∀ line ∈ commandLines (texts i), Runnable line)
  {a : System.State nclients} (ha : Inv file (scripts path texts) a)
include htexts ha

/-- The lines of a client that have taken effect are a beginning of its script. -/
theorem own_lines {m : ℕ} (hm : own i (commits a.log) = List.range m) :
    own i ((commits a.log).map (lineOf texts)) = (commandLines (texts i)).take m := by
  have hle : m ≤ (commandLines (texts i)).length := by
    rw [(loadFile_runnable path (htexts i)).2.length_eq]
    exact le_length_of_own ha hm
  have hmap : (commits a.log).map (lineOf texts) = (commits a.log).map fun x =>
      (x.1, ((commandLines (texts x.1))[x.2]?).getD []) := rfl
  rw [hmap, own_map, hm]
  exact map_range_eq_take hle

theorem runLines_commits :
    runLines (loadText file ∅) ((commits a.log).map (lineOf texts)) =
      (applySets (loadText file ∅) (setsOf (scripts path texts) (commits a.log)),
        (commits a.log).map fun x =>
          (x.1, output file (scripts path texts) (commits a.log) x)) := by
  refine runLines_order ha.orderly.nodup_commits fun x hx => ?_
  have hlt := ((ha.logged x.1).called x.2 (ha.orderly.called hx)).2
  have hcommand := List.getElem?_eq_getElem hlt
  obtain ⟨-, line, hline, hmeans⟩ := getElem?_commandsIn path (htexts x.1) hcommand
  refine ⟨_, hcommand, ?_⟩
  rw [lineOf, hline]
  exact hmeans

theorem own_printed {m : ℕ} (hm : own i (commits a.log) = List.range m) :
    own i (runLines (loadText file ∅) ((commits a.log).map (lineOf texts))).2 =
      (List.range m).map fun k =>
        output file (scripts path texts) (commits a.log) (i, k) := by
  rw [runLines_commits htexts ha, own_map, hm]

end Order

theorem scripts_interleaved (storagePath path : String) (file : Str)
    (texts : Fin nclients → Str)
    (htexts : ∀ i, ∀ line ∈ commandLines (texts i), Runnable line)
    (hfile : ∀ key value, (loadText file ∅).lookup key = some value →
      Message.Small ⟨ECMD.READ_RESPONSE, value⟩)
    (events : List (Bytes.Event nclients)) (c : Bytes.State nclients)
    (hrun : exec (Bytes.step storagePath) (Bytes.start file (scripts path texts)) events =
      some c) : ∃ order, Interleaved path file texts c order := by
  obtain ⟨-, a, -, hrefines, ha, -⟩ :=
    Bytes.refined_run (sendable_scripts path htexts) hfile hrun
  have hresults i : (c.links i).results = (a.links i).results := (hrefines.links i).results
  refine ⟨commits a.log, ha.orderly.nodup_commits, fun i => ?_, fun x y hxy hy => ?_, ?_,
    fun i => ?_, fun hdone i => ?_⟩
  · obtain ⟨m, hm, -⟩ := own_commits ha i
    rw [own_lines htexts ha hm]
    exact List.take_prefix ..
  · exact ha.orderly.realTime (hrefines.log ▸ hxy) hy
  · rw [runLines_commits htexts ha, hrefines.server, ha.history.map, ha.loaded, ha.sets]
  · obtain ⟨m, hm, hle, -⟩ := own_commits ha i
    rw [stdout_eq ha (hresults i), own_printed htexts ha hm, hresults i]
    obtain ⟨d, rfl⟩ := Nat.exists_eq_add_of_le hle
    rw [List.range_add, List.map_append, List.flatten_append]
    exact List.prefix_append ..
  · -- every command has been answered
    obtain ⟨m, hm, hle, -⟩ := own_commits ha i
    have hlength : (scripts path texts i).length ≤ (a.links i).results.length := by
      have hdone' := (hrefines.links i).todo.symm.trans (hdone i)
      exact List.drop_eq_nil_iff.mp ((ha.logged i).todo.symm.trans hdone')
    have hm' := le_length_of_own ha hm
    have hlines := (loadFile_runnable path (htexts i)).2.length_eq
    obtain rfl : (a.links i).results.length = m := le_antisymm hle (hm'.trans hlength)
    constructor
    · rw [own_lines htexts ha hm]
      exact List.take_of_length_le (hlines.trans_le hlength)
    · rw [stdout_eq ha (hresults i), own_printed htexts ha hm, hresults i]

/-- One script sets `k` to `v` and gets it, the other one gets it with a mistyped line. -/
def twoScripts : Fin 2 → Str
  | 0 => SET ++ [SPACE, 107, SPACE, 118, NEWLINE] ++ GET ++ [SPACE, 107, NEWLINE]
  | 1 => GET ++ [88, 107, NEWLINE]

theorem scripts_interleaved_twoScripts :
    ∃ events c, exec (Bytes.step "kvfile.txt")
        (Bytes.start [] (scripts "ops.txt" twoScripts)) events = some c ∧
      (∀ i, (c.links i).todo = []) ∧ ∃ order, Interleaved "ops.txt" [] twoScripts c order := by
  have hset : Message.Small ⟨ECMD.WRITE_REQUEST, setContent [107, SPACE, 118]⟩ := by decide
  have hget : Message.Small ⟨ECMD.READ_REQUEST, [107]⟩ := by decide
  have htexts : ∀ i, ∀ line ∈ commandLines (twoScripts i), Runnable line := by
    refine Fin.forall_fin_two.mpr ⟨?_, ?_⟩
    · exact List.forall_mem_cons.mpr ⟨.set SPACE hset,
        List.forall_mem_singleton.mpr (.get SPACE hget)⟩
    · exact List.forall_mem_singleton.mpr (.get 88 hget)
  obtain ⟨events, c, hrun, hdone⟩ := Bytes.exists_finished "kvfile.txt" []
    (scripts "ops.txt" twoScripts) (sendable_scripts "ops.txt" htexts) Bytes.small_loadText_nil
  exact ⟨events, c, hrun, hdone, scripts_interleaved "kvfile.txt" "ops.txt" [] twoScripts htexts
    Bytes.small_loadText_nil events c hrun⟩

end GJServer.System.Scripts
