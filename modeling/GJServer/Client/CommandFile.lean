import GJServer.Client.Command

/-!
Command files (`client/clientconfig.cpp`): what `Parse` makes of a line, `LoadFile` of
a file, and the file that `StoreFile` writes.

`Parse` compares the first three bytes of a line and takes the arguments from the fifth
byte on. It never looks at the fourth, and a line that ends with its keyword has none.
-/

namespace GJServer.Client

open Library Delimited Net
open KVStorage (NEWLINE)

/-- `get`, the three bytes that begin a read. -/
def GET : Str := [103, 101, 116]

def SET : Str := [115, 101, 116]

/-- The byte that `ToString` puts between a command and its arguments. -/
def SPACE : UInt8 := 32

/-- What the constructor of `std::string` throws for a length that has wrapped
around. -/
def lengthError : String := "basic_string::_M_create"

/-- The arguments behind a command and the byte that follows it. When there is no
such byte their length wraps around. -/
def cmdArg (line command : Str) : Except String Str :=
  if line.length < command.length + 1 then .error lengthError
  else .ok (line.drop (command.length + 1))

namespace TCommandPair

def parse (line : Str) : Except String TCommandPair :=
  let command := line.take (min line.length 3)
  if command = GET then (cmdArg line command).map fun args => ⟨ECMD.READ_REQUEST, args⟩
  else if command = SET then (cmdArg line command).map fun args => ⟨ECMD.WRITE_REQUEST, args⟩
  else .ok ⟨ECMD.None, []⟩

/-- `ToString`, or what it throws. -/
def toString (pair : TCommandPair) : Except String Str :=
  if pair.cmd = ECMD.READ_REQUEST then .ok (GET ++ [SPACE] ++ pair.args)
  else if pair.cmd = ECMD.WRITE_REQUEST then .ok (SET ++ [SPACE] ++ pair.args)
  else .error "Invalid cmd"

/-- Whatever byte separates the command from its arguments is skipped. -/
theorem parse_get (separator : UInt8) (args : Str) :
    parse (GET ++ separator :: args) = .ok ⟨ECMD.READ_REQUEST, args⟩ := by
  have hcommand : (GET ++ separator :: args).take
      (min (GET ++ separator :: args).length 3) = GET := by
    simp [GET]
  rw [parse, hcommand, if_pos rfl, cmdArg, if_neg (by simp [GET])]
  rfl

theorem parse_set (separator : UInt8) (args : Str) :
    parse (SET ++ separator :: args) = .ok ⟨ECMD.WRITE_REQUEST, args⟩ := by
  have hcommand : (SET ++ separator :: args).take
      (min (SET ++ separator :: args).length 3) = SET := by
    simp [SET]
  rw [parse, hcommand, if_neg (by decide), if_pos rfl, cmdArg, if_neg (by simp [SET])]
  rfl

theorem parse_GET : parse GET = .error lengthError := rfl

theorem parse_SET : parse SET = .error lengthError := rfl

theorem parse_of_ne {line : Str} (hget : line.take 3 ≠ GET) (hset : line.take 3 ≠ SET) :
    parse line = .ok ⟨ECMD.None, []⟩ := by
  have hcommand : line.take (min line.length 3) = line.take 3 := by
    rw [Nat.min_comm, ← List.take_eq_take_min]
  rw [parse, hcommand, if_neg hget, if_neg hset]

end TCommandPair

/-! ### One line -/

/-- The lines that `Parse` tells apart. -/
inductive Shape : Str → Prop
  | get (separator : UInt8) (args : Str) : Shape (GET ++ separator :: args)
  | set (separator : UInt8) (args : Str) : Shape (SET ++ separator :: args)
  | bareGet : Shape GET
  | bareSet : Shape SET
  | other {line : Str} (hget : line.take 3 ≠ GET) (hset : line.take 3 ≠ SET) : Shape line

theorem shape (line : Str) : Shape line := by
  have hline := (List.take_append_drop 3 line).symm
  by_cases hget : line.take 3 = GET
  · rw [hget] at hline
    rw [hline]
    cases line.drop 3 with
    | nil => exact .bareGet
    | cons separator args => exact .get separator args
  · by_cases hset : line.take 3 = SET
    · rw [hset] at hline
      rw [hline]
      cases line.drop 3 with
      | nil => exact .bareSet
      | cons separator args => exact .set separator args
    · exact .other hget hset

/-- A line that begins with a keyword has a space behind it. -/
def Separated (bytes : Str) : Prop :=
  bytes.take 3 = GET ∨ bytes.take 3 = SET → bytes[3]? = some SPACE

instance (line : Str) : Decidable (Separated line) := inferInstanceAs (Decidable (_ → _))

theorem separated_get_iff (separator : UInt8) (args : Str) :
    Separated (GET ++ separator :: args) ↔ separator = SPACE := by simp [Separated, GET]

theorem separated_set_iff (separator : UInt8) (args : Str) :
    Separated (SET ++ separator :: args) ↔ separator = SPACE := by simp [Separated, SET]

/-- `Parse` takes a line for a command exactly when it is the keyword, a space and the
arguments, and `ToString` gives back a line that it has taken for one. -/
structure Grammatical (line : Str) (parsed : Except String TCommandPair) : Prop where
  get : ∀ args, parsed = .ok ⟨ECMD.READ_REQUEST, args⟩ ↔ line = GET ++ SPACE :: args
  set : ∀ args, parsed = .ok ⟨ECMD.WRITE_REQUEST, args⟩ ↔ line = SET ++ SPACE :: args
  none : (∀ args, line ≠ GET ++ SPACE :: args) → (∀ args, line ≠ SET ++ SPACE :: args) →
    parsed = .ok ⟨ECMD.None, []⟩
  restored : ∀ pair, parsed = .ok pair → pair.cmd ≠ ECMD.None → pair.toString = .ok line

/-- Only a line with a keyword that is not followed by a space is read otherwise. -/
theorem parse_grammatical_iff (line : Str) :
    Grammatical line (TCommandPair.parse line) ↔ Separated line := by
  cases shape line with
  | get separator args =>
      rw [TCommandPair.parse_get, separated_get_iff]
      constructor
      · intro h
        have hline := (h.get args).mp rfl
        simpa using hline
      · rintro rfl
        refine ⟨fun args' => by simp, fun args' => ?_, fun hget _ => absurd rfl (hget args), ?_⟩
        · simp [GET, SET, ECMD.READ_REQUEST, ECMD.WRITE_REQUEST]
        · intro pair hpair _
          obtain rfl := Except.ok.inj hpair
          simp [TCommandPair.toString]
  | set separator args =>
      rw [TCommandPair.parse_set, separated_set_iff]
      constructor
      · intro h
        have hline := (h.set args).mp rfl
        simpa using hline
      · rintro rfl
        refine ⟨fun args' => ?_, fun args' => by simp, fun _ hset => absurd rfl (hset args), ?_⟩
        · simp [GET, SET, ECMD.READ_REQUEST, ECMD.WRITE_REQUEST]
        · intro pair hpair _
          obtain rfl := Except.ok.inj hpair
          simp [TCommandPair.toString, ECMD.READ_REQUEST, ECMD.WRITE_REQUEST]
  | bareGet =>
      -- the length of the arguments wraps around
      refine iff_of_false (fun h => ?_) (by decide)
      cases (h.none (by simp [GET]) (by simp [GET, SET])).symm.trans TCommandPair.parse_GET
  | bareSet =>
      refine iff_of_false (fun h => ?_) (by decide)
      cases (h.none (by simp [GET, SET]) (by simp [SET])).symm.trans TCommandPair.parse_SET
  | other hget hset =>
      refine iff_of_true ?_ fun h => absurd h (not_or.mpr ⟨hget, hset⟩)
      rw [TCommandPair.parse_of_ne hget hset]
      have hline (keyword : Str) (hkeyword : keyword.length = 3) (hne : line.take 3 ≠ keyword)
          (args : Str) : line ≠ keyword ++ SPACE :: args := by
        rintro rfl
        exact hne (List.take_left' hkeyword)
      refine ⟨fun args => ?_, fun args => ?_, fun _ _ => rfl, ?_⟩
      · exact iff_of_false (by simp [ECMD.None, ECMD.READ_REQUEST]) (hline GET rfl hget args)
      · exact iff_of_false (by simp [ECMD.None, ECMD.WRITE_REQUEST]) (hline SET rfl hset args)
      · intro pair hpair hcmd
        obtain rfl := Except.ok.inj hpair
        exact absurd rfl hcmd

/-- `getX1` runs as a read of the key `1`. -/
theorem mistyped_not_grammatical :
    TCommandPair.parse [103, 101, 116, 88, 49] = .ok ⟨ECMD.READ_REQUEST, [49]⟩ ∧
      ¬Grammatical [103, 101, 116, 88, 49] (TCommandPair.parse [103, 101, 116, 88, 49]) := by
  refine ⟨rfl, fun h => ?_⟩
  have hline := (h.get [49]).mp rfl
  exact absurd hline (by decide)

/-! ### Loading a file -/

/-- What is in the vector when `LoadFile` is left, the text of the exception if it is
left with one, and what it logs as fatal. -/
structure Loaded where
  comands : List TCommandPair
  thrown : Option String
  fatal : List String
  deriving DecidableEq

def loadFailed (path what : String) : String :=
  "CMD file load failed. Filepath: " ++ path ++ " Error: " ++ what

/-- The loop of `LoadFile` over the lines of a file that could be opened, with the
exception of `Parse` that ends it. -/
def loadLines : List TCommandPair → List Str → List TCommandPair × Option String
  | comands, [] => (comands, none)
  | comands, line :: ls =>
      if line = [] then loadLines comands ls
      else match TCommandPair.parse line with
        | .ok command => loadLines (comands ++ [command]) ls
        | .error what => (comands, some what)

def loadFile (path : String) (file : Option Str) (comands : List TCommandPair) : Loaded :=
  match file with
  | none =>
      { comands := comands, thrown := some "std::exception"
        fatal := ["failed open commands file: " ++ path, loadFailed path "std::exception"] }
  | some text =>
      let loaded := loadLines comands (lines NEWLINE text)
      { comands := loaded.1, thrown := loaded.2
        fatal := (loaded.2.map (loadFailed path)).toList }

/-- The lines that are not skipped. -/
def commandLines (text : Str) : List Str := (lines NEWLINE text).filter (· ≠ [])

theorem parse_eq_error {line : Str} {what : String} (h : TCommandPair.parse line = .error what) :
    (line = GET ∨ line = SET) ∧ what = lengthError := by
  cases shape line with
  | get separator args => cases (TCommandPair.parse_get separator args).symm.trans h
  | set separator args => cases (TCommandPair.parse_set separator args).symm.trans h
  | bareGet => exact ⟨Or.inl rfl, (Except.error.inj h).symm⟩
  | bareSet => exact ⟨Or.inr rfl, (Except.error.inj h).symm⟩
  | other hget hset => cases (TCommandPair.parse_of_ne hget hset).symm.trans h

/-- The loop appends what `Parse` makes of each line, up to the first line that is a
keyword and nothing else. -/
theorem loadLines_cases (comands : List TCommandPair) (ls : List Str) :
    ∃ pairs, (loadLines comands ls).1 = comands ++ pairs ∧
      ((loadLines comands ls).2 = none ∧
          List.Forall₂ (fun line pair => TCommandPair.parse line = .ok pair)
            (ls.filter (· ≠ [])) pairs ∨
        (loadLines comands ls).2 = some lengthError ∧ ∃ line ∈ ls, line = GET ∨ line = SET) := by
  induction ls generalizing comands with
  | nil => exact ⟨[], (List.append_nil _).symm, Or.inl ⟨rfl, .nil⟩⟩
  | cons line ls ih =>
      rw [loadLines]
      by_cases hempty : line = []
      · rw [if_pos hempty, List.filter_cons_of_neg (by simp [hempty])]
        obtain ⟨pairs, happends, hcases⟩ := ih comands
        refine ⟨pairs, happends, hcases.imp_right fun ⟨hthrown, bare, hbare, hkeyword⟩ => ?_⟩
        exact ⟨hthrown, bare, List.mem_cons_of_mem _ hbare, hkeyword⟩
      · rw [if_neg hempty, List.filter_cons_of_pos (by simp [hempty])]
        cases hparse : TCommandPair.parse line with
        | ok command =>
            obtain ⟨pairs, happends, hcases⟩ := ih (comands ++ [command])
            refine ⟨command :: pairs, by simpa using happends, hcases.imp ?_ ?_⟩
            · exact fun ⟨hthrown, hpairs⟩ => ⟨hthrown, .cons hparse hpairs⟩
            · exact fun ⟨hthrown, bare, hbare, hkeyword⟩ =>
                ⟨hthrown, bare, List.mem_cons_of_mem _ hbare, hkeyword⟩
        | error what =>
            obtain ⟨hkeyword, rfl⟩ := parse_eq_error hparse
            exact ⟨[], (List.append_nil _).symm,
              Or.inr ⟨rfl, line, List.mem_cons_self, hkeyword⟩⟩

/-- What a line of a command file stands for. -/
structure Says (line : Str) (pair : TCommandPair) : Prop where
  get : ∀ args, line = GET ++ SPACE :: args → pair = ⟨ECMD.READ_REQUEST, args⟩
  set : ∀ args, line = SET ++ SPACE :: args → pair = ⟨ECMD.WRITE_REQUEST, args⟩
  none : (∀ args, line ≠ GET ++ SPACE :: args) → (∀ args, line ≠ SET ++ SPACE :: args) →
    pair.cmd = ECMD.None

theorem says_iff {line : Str} {pair : TCommandPair} (h : TCommandPair.parse line = .ok pair) :
    Says line pair ↔ Separated line := by
  cases shape line with
  | get separator args =>
      obtain rfl := Except.ok.inj ((TCommandPair.parse_get separator args).symm.trans h)
      rw [separated_get_iff]
      constructor
      · intro hsays
        by_contra hne
        cases hsays.none (by simpa using hne) (by simp [GET, SET])
      · rintro rfl
        exact ⟨by simp, by simp [GET, SET], fun hget _ => absurd rfl (hget args)⟩
  | set separator args =>
      obtain rfl := Except.ok.inj ((TCommandPair.parse_set separator args).symm.trans h)
      rw [separated_set_iff]
      constructor
      · intro hsays
        by_contra hne
        cases hsays.none (by simp [GET, SET]) (by simpa using hne)
      · rintro rfl
        exact ⟨by simp [GET, SET], by simp, fun _ hset => absurd rfl (hset args)⟩
  | bareGet => cases TCommandPair.parse_GET.symm.trans h
  | bareSet => cases TCommandPair.parse_SET.symm.trans h
  | other hget hset =>
      obtain rfl := Except.ok.inj ((TCommandPair.parse_of_ne hget hset).symm.trans h)
      refine iff_of_true ⟨?_, ?_, fun _ _ => rfl⟩ fun hkeyword => ?_
      · rintro args rfl
        exact absurd (List.take_left' (show GET.length = 3 from rfl)) hget
      · rintro args rfl
        exact absurd (List.take_left' (show SET.length = 3 from rfl)) hset
      · exact absurd hkeyword (not_or.mpr ⟨hget, hset⟩)

/-- `LoadFile` returns and has appended one command for each line that is not empty, in
their order, and for none of them has a length wrapped around. -/
structure LoadsAll (text : Str) (comands : List TCommandPair) (loaded : Loaded) : Prop where
  returns : loaded.thrown = none
  appends : ∃ pairs, loaded.comands = comands ++ pairs ∧
    List.Forall₂ Says (commandLines text) pairs
  inRange : ∀ line ∈ commandLines text, TCommandPair.parse line ≠ .error lengthError

/-- A keyword alone is not separated from anything. -/
theorem Separated.not_bare {line : Str} (h : Separated line) : line ≠ GET ∧ line ≠ SET := by
  constructor <;> rintro rfl <;> exact absurd h (by decide)

theorem forall₂_says_iff {ls : List Str} {pairs : List TCommandPair}
    (h : List.Forall₂ (fun line pair => TCommandPair.parse line = .ok pair) ls pairs) :
    List.Forall₂ Says ls pairs ↔ ∀ line ∈ ls, Separated line := by
  induction h with
  | nil => simp
  | cons hparse _ ih => rw [List.forall₂_cons, says_iff hparse, ih, List.forall_mem_cons]

theorem forall_commandLines_iff (text : Str) :
    (∀ line ∈ commandLines text, Separated line) ↔ ∀ line ∈ lines NEWLINE text, Separated line := by
  refine ⟨fun h line hline => ?_, fun h line hline => h line (List.mem_filter.mp hline).1⟩
  by_cases hempty : line = []
  · rw [hempty]
    decide
  · exact h line (List.mem_filter.mpr ⟨hline, by simp [hempty]⟩)

theorem loadFile_loadsAll_iff (path : String) (text : Str) (comands : List TCommandPair) :
    LoadsAll text comands (loadFile path (some text) comands) ↔
      ∀ line ∈ lines NEWLINE text, Separated line := by
  rw [← forall_commandLines_iff]
  obtain ⟨pairs, happends, hcases⟩ := loadLines_cases comands (lines NEWLINE text)
  constructor
  · intro h
    rcases hcases with ⟨-, hparse⟩ | ⟨hthrown, -⟩
    · obtain ⟨pairs', happends', hsays⟩ := h.appends
      obtain rfl := List.append_cancel_left (happends.symm.trans happends')
      exact (forall₂_says_iff hparse).mp hsays
    · cases hthrown.symm.trans h.returns
  · intro h
    rcases hcases with ⟨hreturns, hparse⟩ | ⟨-, line, hline, hkeyword⟩
    · refine ⟨hreturns, ⟨pairs, happends, (forall₂_says_iff hparse).mpr h⟩, ?_⟩
      intro line hline herror
      exact absurd (parse_eq_error herror).1 (not_or.mpr (h line hline).not_bare)
    · have hseparated := (forall_commandLines_iff text).mp h line hline
      exact absurd hkeyword (not_or.mpr hseparated.not_bare)

/-- A command file whose second line has lost its key. -/
def lostKey : Str := GET ++ [SPACE, 49, NEWLINE] ++ GET ++ [NEWLINE] ++ GET ++ [SPACE, 50, NEWLINE]

theorem lostKey_throws :
    loadFile "ops.txt" (some lostKey) [] =
        { comands := [⟨ECMD.READ_REQUEST, [49]⟩], thrown := some lengthError
          fatal := [loadFailed "ops.txt" lengthError] } ∧
      ¬LoadsAll lostKey [] (loadFile "ops.txt" (some lostKey) []) := by
  refine ⟨rfl, fun h => ?_⟩
  cases h.returns

/-! ### Storing a file -/

/-- What `StoreFile` returns, what it has written, and what it logs as errors. -/
structure Stored where
  answer : Bool
  text : Option Str
  errors : List String
  deriving DecidableEq

/-- The loop of `StoreFile` on a stream that does not fail, with the exception of
`ToString` that ends it. -/
def storeLines : Str → List TCommandPair → Str × Option String
  | text, [] => (text, none)
  | text, item :: comands =>
      match item.toString with
      | .ok line => storeLines (text ++ line ++ [NEWLINE]) comands
      | .error what => (text, some what)

/-- `StoreFile`; `opened` says whether the file could be created. -/
def storeFile (path : String) (opened : Bool) (comands : List TCommandPair) : Stored :=
  if opened then
    let stored := storeLines [] comands
    { answer := stored.2.isNone, text := some stored.1
      errors := (stored.2.map fun what => "KV file write failed." ++ what).toList }
  else
    { answer := false, text := none, errors := ["CMD file create failed. Path: " ++ path] }

/-- The line of a get or a set. -/
def TCommandPair.line (pair : TCommandPair) : Str :=
  (if pair.cmd = ECMD.READ_REQUEST then GET else SET) ++ SPACE :: pair.args

def TCommandPair.IsCommand (pair : TCommandPair) : Prop :=
  pair.cmd = ECMD.READ_REQUEST ∨ pair.cmd = ECMD.WRITE_REQUEST

instance (pair : TCommandPair) : Decidable pair.IsCommand := inferInstanceAs (Decidable (_ ∨ _))

theorem toString_eq {pair : TCommandPair} (h : pair.IsCommand) : pair.toString = .ok pair.line := by
  obtain ⟨cmd, args⟩ := pair
  obtain rfl | rfl := h
  · simp [TCommandPair.toString, TCommandPair.line]
  · simp [TCommandPair.toString, TCommandPair.line, ECMD.READ_REQUEST, ECMD.WRITE_REQUEST]

theorem parse_line {pair : TCommandPair} (h : pair.IsCommand) :
    TCommandPair.parse pair.line = .ok pair := by
  obtain ⟨cmd, args⟩ := pair
  obtain rfl | rfl := h
  · exact TCommandPair.parse_get SPACE args
  · exact TCommandPair.parse_set SPACE args

theorem storeLines_eq {comands : List TCommandPair} (h : ∀ pair ∈ comands, pair.IsCommand)
    (text : Str) :
    storeLines text comands =
      (text ++ unlines NEWLINE (comands.map TCommandPair.line), none) := by
  induction comands generalizing text with
  | nil => simp [storeLines, unlines]
  | cons item comands ih =>
      obtain ⟨hitem, hcomands⟩ := List.forall_mem_cons.mp h
      simp only [storeLines, toString_eq hitem, ih hcomands, unlines, List.map_cons,
        List.flatMap_cons, List.append_assoc]

/-- Lines that hold one command each are all loaded. -/
theorem loadLines_line {comands : List TCommandPair} (h : ∀ pair ∈ comands, pair.IsCommand)
    (loaded : List TCommandPair) :
    loadLines loaded (comands.map TCommandPair.line) = (loaded ++ comands, none) := by
  induction comands generalizing loaded with
  | nil => simp [loadLines]
  | cons pair comands ih =>
      obtain ⟨hpair, hcomands⟩ := List.forall_mem_cons.mp h
      have hne : pair.line ≠ [] := by simp [TCommandPair.line]
      rw [List.map_cons, loadLines, if_neg hne, parse_line hpair]
      simp only [ih hcomands, List.append_assoc, List.singleton_append]

theorem not_mem_line {pair : TCommandPair} (h : NEWLINE ∉ pair.args) : NEWLINE ∉ pair.line := by
  rw [TCommandPair.line, List.mem_append, List.mem_cons]
  rintro (hmem | hmem | hmem)
  · split at hmem <;> exact absurd hmem (by decide)
  · cases hmem
  · exact h hmem

/-- The arguments are the end of the line. -/
theorem args_suffix {line : Str} {pair : TCommandPair} (h : TCommandPair.parse line = .ok pair) :
    pair.args <:+ line := by
  cases shape line with
  | get separator args =>
      obtain rfl := Except.ok.inj ((TCommandPair.parse_get separator args).symm.trans h)
      exact ⟨GET ++ [separator], by simp⟩
  | set separator args =>
      obtain rfl := Except.ok.inj ((TCommandPair.parse_set separator args).symm.trans h)
      exact ⟨SET ++ [separator], by simp⟩
  | bareGet => cases TCommandPair.parse_GET.symm.trans h
  | bareSet => cases TCommandPair.parse_SET.symm.trans h
  | other hget hset =>
      obtain rfl := Except.ok.inj ((TCommandPair.parse_of_ne hget hset).symm.trans h)
      exact List.nil_suffix

/-- No argument that comes out of a file has a newline in it. -/
theorem not_mem_args_of_parse {ls : List Str} {pairs : List TCommandPair}
    (h : List.Forall₂ (fun line pair => TCommandPair.parse line = .ok pair) ls pairs)
    (hls : ∀ line ∈ ls, NEWLINE ∉ line) : ∀ pair ∈ pairs, NEWLINE ∉ pair.args := by
  induction h with
  | nil => simp
  | cons hparse _ ih =>
      obtain ⟨hline, hls⟩ := List.forall_mem_cons.mp hls
      refine List.forall_mem_cons.mpr ⟨fun hmem => hline ?_, ih hls⟩
      exact (args_suffix hparse).subset hmem

/-- A list of gets and sets comes back from the file that `StoreFile` writes exactly
when no argument has a newline in it. -/
theorem loadFile_storeFile_iff (path : String) (comands : List TCommandPair)
    (h : ∀ pair ∈ comands, pair.IsCommand) :
    ∃ text, storeFile path true comands = { answer := true, text := some text, errors := [] } ∧
      (loadFile path (some text) [] = { comands := comands, thrown := none, fatal := [] } ↔
        ∀ pair ∈ comands, NEWLINE ∉ pair.args) := by
  refine ⟨unlines NEWLINE (comands.map TCommandPair.line), ?_, ?_⟩
  · simp [storeFile, storeLines_eq h]
  constructor
  · intro hload
    obtain ⟨pairs, happends, hcases⟩ :=
      loadLines_cases [] (lines NEWLINE (unlines NEWLINE (comands.map TCommandPair.line)))
    obtain rfl : pairs = comands := happends.symm.trans (congrArg Loaded.comands hload)
    rcases hcases with ⟨-, hparse⟩ | ⟨hthrown, -⟩
    · refine not_mem_args_of_parse hparse fun line hline => ?_
      exact not_mem_of_mem_lines (List.mem_filter.mp hline).1
    · cases hthrown.symm.trans (congrArg Loaded.thrown hload)
  · intro hargs
    have hlines : ∀ line ∈ comands.map TCommandPair.line, NEWLINE ∉ line := by
      intro line hline
      obtain ⟨pair, hpair, rfl⟩ := List.mem_map.mp hline
      exact not_mem_line (hargs pair hpair)
    simp [loadFile, lines_unlines hlines, loadLines_line h]

/-- A read without a key, and a write whose arguments look like a command and begin
and end with a space. -/
def oddCommands : List TCommandPair :=
  [⟨ECMD.READ_REQUEST, []⟩, ⟨ECMD.WRITE_REQUEST, [32, 32] ++ GET ++ [32]⟩]

theorem loadFile_storeFile_odd :
    ∃ text, storeFile "ops.txt" true oddCommands =
        { answer := true, text := some text, errors := [] } ∧
      (loadFile "ops.txt" (some text) [] = { comands := oddCommands, thrown := none, fatal := [] } ↔
        ∀ pair ∈ oddCommands, NEWLINE ∉ pair.args) :=
  loadFile_storeFile_iff "ops.txt" oddCommands (by decide)

end GJServer.Client
