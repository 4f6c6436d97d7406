import TradingChartViewer.Configuration.ConfigProvider
import TradingChartViewer.Lib.Override

/-!
# Which source a setting comes from

The values that the file, the environment and the command line give, in the
order of the code, as one list of assignments.

* `reads`: the options that a loop over `argv` reads; `parseCli_eq_foldl`,
  `cliConfigPath_eq_foldl`: the two loops by them;
* `get_configProvider`: a setting ends with the last of its values that
  `Config.assign` takes (`assigned`);
* `get_eq_precedent`, `logLevel_eq_precedent_iff`: against the well-formed values
  of the first source that has one (`precedent`).
-/

namespace TCV.Configuration

open Lib.Override

/-! ## Values -/

/-- The value of a setting. -/
inductive Value
  | text (s : List Char)
  | size (n : Int)
  | flag (b : Bool)
  | level (l : LogLevel)
deriving DecidableEq, Repr

def Config.get (cfg : Config) : Setting → Value
  | .symbol => .text cfg.symbol
  | .interval => .text cfg.interval
  | .dataDir => .text cfg.dataDir
  | .cacheDir => .text cfg.cacheDir
  | .restHost => .text cfg.restHost
  | .wsHost => .text cfg.wsHost
  | .wsPath => .text cfg.wsPathTemplate
  | .windowWidth => .size cfg.windowWidth
  | .windowHeight => .size cfg.windowHeight
  | .fullscreen => .flag cfg.windowFullscreen
  | .logLevel => .level cfg.logLevel

/-- The names of the log levels. -/
def knownLevel (value : List Char) : Option LogLevel :=
  [("trace".toList, LogLevel.trace), ("debug".toList, .debug), ("info".toList, .info),
    ("warn".toList, .warn), ("warning".toList, .warn), ("error".toList, .error)].lookup
      (lowercase value)

/-- The value that a text stands for. A size is an integer, a flag a truth
value and a log level a known one; any text is a name, a directory or a path. -/
def wellFormed : Setting → List Char → Option Value
  | .windowWidth, value => (parseInt value).map .size
  | .windowHeight, value => (parseInt value).map .size
  | .fullscreen, value => (parseBool value).map .flag
  | .logLevel, value => (knownLevel value).map .level
  | _, value => some (.text value)

/-- A window is never smaller than `kMinWindowSize`. -/
def Value.kept : Value → Value
  | .size n => .size (max n kMinWindowSize)
  | value => value

/-- What `Config.assign` writes. -/
def assigned : Setting → List Char → Option Value
  | .logLevel, value => some (.level (parseLogLevel value))
  | setting, value => (wellFormed setting value).map Value.kept

theorem lookup_cons_eq_ite {α β : Type*} [BEq α] (k : α) (b : β) (es : List (α × β)) (a : α) :
    ((k, b) :: es).lookup a = if (a == k) = true then some b else es.lookup a := by
  rw [List.lookup_cons]
  cases a == k <;> rfl

theorem parseLogLevel_eq (value : List Char) :
    parseLogLevel value = (knownLevel value).getD .info := by
  unfold parseLogLevel knownLevel
  simp only [lookup_cons_eq_ite, List.lookup_nil, beq_iff_eq, Bool.or_eq_true, decide_eq_true_eq]
  split_ifs <;> simp_all

theorem assigned_of_ne {setting : Setting} (h : setting ≠ .logLevel) (value : List Char) :
    assigned setting value = (wellFormed setting value).map Value.kept := by
  cases setting <;> first | rfl | exact absurd rfl h

theorem get_assign (cfg : Config) (setting : Setting) (value : List Char) (s : Setting) :
    (cfg.assign setting value).get s =
      (lastGiven assigned [(setting, value)] s).getD (cfg.get s) := by
  rw [lastGiven_singleton]
  split
  · rename_i h
    obtain rfl : setting = s := h
    cases setting with
    | windowWidth | windowHeight =>
      simp only [Config.assign, assigned, wellFormed]
      cases parseInt value <;> rfl
    | fullscreen =>
      simp only [Config.assign, assigned, wellFormed]
      cases parseBool value <;> rfl
    | _ => rfl
  · rename_i h
    cases setting with
    | windowWidth | windowHeight =>
      simp only [Config.assign]
      cases parseInt value <;> cases s <;> first | rfl | exact absurd rfl h
    | fullscreen =>
      simp only [Config.assign]
      cases parseBool value <;> cases s <;> first | rfl | exact absurd rfl h
    | _ => cases s <;> first | rfl | exact absurd rfl h

/-- A malformed size or flag leaves the configuration as it was. -/
theorem assign_malformed (cfg : Config) {setting : Setting} {value : List Char}
    (h : wellFormed setting value = none) (hlevel : setting ≠ .logLevel) :
    cfg.assign setting value = cfg := by
  cases setting with
  | windowWidth | windowHeight | fullscreen =>
    simp only [Config.assign, Option.map_eq_none_iff.1 h]
  | logLevel => exact absurd rfl hlevel
  | _ => cases h

/-- A step that assigns what it is given, if anything. -/
theorem assigns_of_step {τ : Type*} {step : Config → τ → Config}
    {given : τ → Option (Setting × List Char)}
    (hsome : ∀ cfg t a, given t = some a → ∀ s, (step cfg t).get s = (cfg.assign a.1 a.2).get s)
    (hnone : ∀ cfg t, given t = none → ∀ s, (step cfg t).get s = cfg.get s) :
    Assigns Config.get step given assigned where
  get_step cfg t s := by
    cases ht : given t with
    | none =>
      rw [hnone cfg t ht]
      rfl
    | some a =>
      rw [hsome cfg t a ht, get_assign]
      rfl

/-! ## The environment and the file -/

def envGiven (getenv : List Char → Option (List Char)) : List (Setting × List Char) :=
  envVariables.filterMap fun entry => (getenv entry.1).map (entry.2, ·)

theorem get_parseEnv (getenv : List Char → Option (List Char)) (cfg : Config) (s : Setting) :
    (parseEnv getenv cfg).get s = (lastGiven assigned (envGiven getenv) s).getD (cfg.get s) := by
  refine Assigns.get_foldl (assigns_of_step (fun cfg entry a h s => ?_) fun cfg entry h s => ?_)
    envVariables cfg s
  · obtain ⟨value, hvalue, rfl⟩ := Option.map_eq_some_iff.1 h
    rw [hvalue]
  · rw [Option.map_eq_none_iff.1 h]

def lineGiven (line : List Char) : Option (Setting × List Char) :=
  let line := trim line
  if line.isEmpty || line.head? = some '#' then none
  else
    match line.dropWhile (· ≠ '=') with
    | [] => none
    | _ :: value => (fileSetting (trim (line.takeWhile (· ≠ '=')))).map (·, trim value)

theorem parseLine_eq (cfg : Config) (line : List Char) :
    parseLine cfg line = (lineGiven line).elim cfg fun a => cfg.assign a.1 a.2 := by
  simp only [parseLine, lineGiven]
  split
  · rfl
  · cases (trim line).dropWhile (· ≠ '=') with
    | nil => rfl
    | cons c value => cases fileSetting (trim ((trim line).takeWhile (· ≠ '='))) <;> rfl

def contentGiven (content : List Char) : List (Setting × List Char) :=
  (content.splitOn '\n').filterMap lineGiven

theorem get_parseLines (content : List Char) (cfg : Config) (s : Setting) :
    ((content.splitOn '\n').foldl parseLine cfg).get s =
      (lastGiven assigned (contentGiven content) s).getD (cfg.get s) := by
  refine Assigns.get_foldl (assigns_of_step (fun cfg line a h s => ?_) fun cfg line h s => ?_) _ _ _
  · rw [parseLine_eq, h]
    rfl
  · rw [parseLine_eq, h]
    rfl

namespace Startup

/-- The path of the file that the constructor looks for. -/
def configPath (p : Startup) : Option (List Char) :=
  let path := cliConfigPath [] p.args
  if path.isEmpty then p.getenv "TTP_CONFIG".toList else some path

/-- What the file gives: nothing where there is none. -/
def fileGiven (p : Startup) : List (Setting × List Char) :=
  ((p.configPath.bind p.files).map contentGiven).getD []

theorem get_loadFile (p : Startup) (s : Setting) :
    p.loadFile.get s = (lastGiven assigned p.fileGiven s).getD (({} : Config).get s) := by
  have hload : ∀ path, Config.get (if p.fileExists path = true then
      { parseFile p.files path {} with configFile := path } else {}) s =
        (lastGiven assigned (((p.files path).map contentGiven).getD []) s).getD
          (({} : Config).get s) := by
    intro path
    cases hfile : p.files path with
    | none => simp only [fileExists, hfile, Option.isSome_none, Bool.false_eq_true, if_false]; rfl
    | some content =>
      simp only [fileExists, hfile, Option.isSome_some, if_true, Option.map_some, Option.getD_some,
        parseFile]
      rw [← get_parseLines]
      cases s <;> rfl
  simp only [loadFile, fileGiven, configPath]
  by_cases hpath : (cliConfigPath [] p.args).isEmpty = true
  · rw [if_neg (by rw [hpath]; decide), if_pos hpath]
    cases p.getenv "TTP_CONFIG".toList with
    | none => rfl
    | some path => exact hload path
  · rw [if_pos (by simpa using hpath), if_neg hpath]
    exact hload _

end Startup

/-! ## The loops over the command line -/

def CliArg.takesNext : CliArg → Bool
  | .take _ => true
  | .takeConfig => true
  | _ => false

def CliArg.isConfig : CliArg → Bool
  | .takeConfig => true
  | .config _ => true
  | _ => false

/-- What the constructor's loop takes an argument for. -/
def configArg (arg : List Char) : CliArg :=
  if arg = "--config".toList then .takeConfig
  else if "--config=".toList <+: arg then .config (arg.drop 9)
  else .other

/-- An option that a loop reads, and the argument after it, where the loop
takes that for the value. -/
structure Read where
  index : Nat
  option : CliArg
  value : Option (List Char)
deriving DecidableEq, Repr

/-- Where the value stands. -/
def Read.consumed (r : Read) : Option Nat := r.value.map fun _ => r.index + 1

/-- The options that a loop reads from index `i` on. -/
def reads (readArg : List Char → CliArg) (i : Nat) : List (Option (List Char)) → List Read
  | [] => []
  | none :: rest => reads readArg (i + 1) rest
  | some arg :: rest =>
    if readArg arg = .other then reads readArg (i + 1) rest
    else if (readArg arg).takesNext then
      match rest with
      | some next :: rest => ⟨i, readArg arg, some next⟩ :: reads readArg (i + 2) rest
      | rest => ⟨i, readArg arg, none⟩ :: reads readArg (i + 1) rest
    else ⟨i, readArg arg, none⟩ :: reads readArg (i + 1) rest

/-- What `parseCli_` does on an option. -/
def Config.obey (cfg : Config) (r : Read) : Config :=
  match r.option, r.value with
  | .help, _ => { cfg with showHelp := true }
  | .version, _ => { cfg with showVersion := true }
  | .take setting, some next => cfg.assign setting next
  | .takeConfig, some next => { cfg with configFile := next }
  | .config path, _ => { cfg with configFile := path }
  | .fullscreen, _ => { cfg with windowFullscreen := true }
  | .set setting value, _ => cfg.assign setting value
  | _, _ => cfg

/-- What the constructor's loop does on an option. -/
def obeyPath (path : List Char) (r : Read) : List Char :=
  match r.option, r.value with
  | .takeConfig, some next => next
  | .config path, _ => path
  | _, _ => path

/-- Where the next argument is missing, the loops take the other branch. -/
theorem match_missing {β : Type*} (f : List Char → List (Option (List Char)) → β)
    (g : List (Option (List Char)) → β) (rest : List (Option (List Char))) :
    (∀ next rest', rest ≠ some next :: rest') →
      (match rest with
        | some next :: rest => f next rest
        | rest => g rest) = g rest := by
  intro h
  cases rest with
  | nil => rfl
  | cons a rest =>
    cases a with
    | none => rfl
    | some next => exact absurd rfl (h next rest)

theorem parseCli_eq_foldl (i : Nat) (cfg : Config) (args : List (Option (List Char))) :
    parseCli cfg args = (reads cliArg i args).foldl Config.obey cfg := by
  fun_induction reads cliArg i args generalizing cfg with
  | case1 => rfl
  | case2 i rest ih => exact ih cfg
  | case3 i arg rest hother ih =>
    unfold parseCli
    rw [hother]
    exact ih cfg
  | case4 i arg hother htakes next rest ih =>
    unfold parseCli
    rw [List.foldl_cons, ← ih, Config.obey]
    cases harg : cliArg arg <;> first | rfl | (rw [harg] at htakes; cases htakes)
  | case5 i arg hother htakes rest hrest ih =>
    unfold parseCli
    rw [List.foldl_cons, ← ih, Config.obey]
    cases harg : cliArg arg with
    | take | takeConfig => exact match_missing _ _ rest hrest
    | _ => rfl
  | case6 i arg rest hother htakes ih =>
    unfold parseCli
    rw [List.foldl_cons, ← ih, Config.obey]
    cases harg : cliArg arg with
    | take | takeConfig => exact absurd (harg ▸ rfl) htakes
    | other => exact absurd harg hother
    | _ => rfl

theorem cliConfigPath_eq_foldl (i : Nat) (path : List Char) (args : List (Option (List Char))) :
    cliConfigPath path args = (reads configArg i args).foldl obeyPath path := by
  fun_induction reads configArg i args generalizing path with
  | case1 => rfl
  | case2 i rest ih => exact ih path
  | case3 i arg rest hother ih =>
    unfold cliConfigPath
    unfold configArg at hother
    split_ifs at hother with h1 h2
    rw [if_neg h1, if_neg h2]
    exact ih path
  | case4 i arg hother htakes next rest ih =>
    unfold cliConfigPath
    rw [List.foldl_cons, ← ih]
    unfold configArg at htakes ⊢
    split_ifs at htakes ⊢ with h1 h2
    · rfl
    · cases htakes
    · cases htakes
  | case5 i arg hother htakes rest hrest ih =>
    unfold cliConfigPath
    rw [List.foldl_cons, ← ih]
    unfold configArg at htakes ⊢
    split_ifs at htakes ⊢ with h1 h2
    · exact match_missing _ _ rest hrest
    · cases htakes
    · cases htakes
  | case6 i arg rest hother htakes ih =>
    unfold cliConfigPath
    rw [List.foldl_cons, ← ih]
    unfold configArg at hother htakes ⊢
    split_ifs at hother htakes ⊢ with h1 h2
    · exact absurd rfl htakes
    · rfl
    · exact absurd rfl hother

/-- What an option gives a setting. -/
def Read.given (r : Read) : Option (Setting × List Char) :=
  match r.option, r.value with
  | .take setting, some next => some (setting, next)
  | .fullscreen, _ => some (.fullscreen, "true".toList)
  | .set setting value, _ => some (setting, value)
  | _, _ => none

def cliGiven (args : List (Option (List Char))) : List (Setting × List Char) :=
  (reads cliArg 1 args).filterMap Read.given

theorem get_parseCli (args : List (Option (List Char))) (cfg : Config) (s : Setting) :
    (parseCli cfg args).get s = (lastGiven assigned (cliGiven args) s).getD (cfg.get s) := by
  rw [parseCli_eq_foldl 1]
  refine Assigns.get_foldl (assigns_of_step ?_ ?_) _ cfg s
  · rintro cfg ⟨i, option, value⟩ a h s
    cases option <;> cases value <;> cases h <;> rfl
  · rintro cfg ⟨i, option, value⟩ h s
    cases option <;> cases value <;> first | (cases s <;> rfl) | cases h

/-! ## The precedence -/

namespace Startup

/-- What the command line, the environment and the file give, the first to go first. -/
def layers (p : Startup) : List (List (Setting × List Char)) :=
  [cliGiven p.args, envGiven p.getenv, p.fileGiven]

/-- All that is given, in the order of the code. -/
def given (p : Startup) : List (Setting × List Char) := p.layers.reverse.flatten

/-- The value of the first source with a well-formed one, its last such, or the default. -/
def precedent (p : Startup) (s : Setting) : Value :=
  ((p.layers.findSome? (lastGiven wellFormed · s)).getD (({} : Config).get s)).kept

theorem get_configProvider (p : Startup) (s : Setting) :
    p.configProvider.get s = (lastGiven assigned p.given s).getD (({} : Config).get s) := by
  have hgiven : p.given = p.fileGiven ++ (envGiven p.getenv ++ cliGiven p.args) := by
    simp [given, layers]
  rw [configProvider, get_parseCli, get_parseEnv, get_loadFile, hgiven, lastGiven_append,
    lastGiven_append]
  cases lastGiven assigned (cliGiven p.args) s <;>
    cases lastGiven assigned (envGiven p.getenv) s <;> rfl

theorem default_kept (s : Setting) : (({} : Config).get s).kept = ({} : Config).get s := by
  cases s <;> decide

theorem precedent_eq (p : Startup) (s : Setting) :
    p.precedent s = ((lastGiven wellFormed p.given s).map Value.kept).getD (({} : Config).get s) := by
  rw [precedent, given, lastGiven_layers]
  cases p.layers.findSome? (lastGiven wellFormed · s) with
  | none => exact default_kept s
  | some v => rfl

theorem get_eq_precedent (p : Startup) {s : Setting} (h : s ≠ .logLevel) :
    p.configProvider.get s = p.precedent s := by
  have hcongr : lastGiven assigned p.given s =
      lastGiven (fun s value => (wellFormed s value).map Value.kept) p.given s :=
    lastGiven_congr (assigned_of_ne h)
  rw [get_configProvider, precedent_eq, hcongr, lastGiven_map]

/-- The log levels that are given, in the order of the code. -/
def levelsGiven (p : Startup) : List (List Char) := valuesFor p.given .logLevel

/-- If the last level given is unknown, the last known one, or else the default, is `info`. -/
def LevelKept (p : Startup) : Prop :=
  ∀ last ∈ p.levelsGiven.getLast?, knownLevel last = none →
    (p.levelsGiven.filterMap knownLevel).getLast?.getD .info = .info

theorem logLevel_configProvider (p : Startup) :
    p.configProvider.get .logLevel =
      .level ((p.levelsGiven.getLast?.bind knownLevel).getD .info) := by
  have hassigned : lastGiven assigned p.given .logLevel =
      p.levelsGiven.getLast?.map fun v => .level (parseLogLevel v) := by
    rw [lastGiven, ← List.getLast?_map, ← List.filterMap_eq_map]
    rfl
  rw [get_configProvider, hassigned]
  cases p.levelsGiven.getLast? with
  | none => rfl
  | some v => exact congrArg Value.level (parseLogLevel_eq v)

theorem logLevel_precedent (p : Startup) :
    p.precedent .logLevel = .level ((p.levelsGiven.filterMap knownLevel).getLast?.getD .info) := by
  have hwell : lastGiven wellFormed p.given .logLevel =
      (p.levelsGiven.filterMap knownLevel).getLast?.map .level := by
    rw [lastGiven, ← List.getLast?_map, List.map_filterMap]
    rfl
  rw [precedent_eq, hwell]
  cases (p.levelsGiven.filterMap knownLevel).getLast? <;> rfl

theorem logLevel_eq_precedent_iff (p : Startup) :
    p.configProvider.get .logLevel = p.precedent .logLevel ↔ p.LevelKept := by
  rw [logLevel_configProvider, logLevel_precedent, Value.level.injEq, LevelKept]
  cases hlast : p.levelsGiven.getLast? with
  | none =>
    rw [List.getLast?_eq_none_iff.1 hlast]
    exact iff_of_true rfl fun v h => nomatch h
  | some v =>
    have hsplit : (p.levelsGiven.filterMap knownLevel).getLast? =
        (knownLevel v).or (p.levelsGiven.dropLast.filterMap knownLevel).getLast? := by
      conv_lhs => rw [← List.dropLast_append_getLast? v hlast, List.filterMap_append,
        List.getLast?_append, List.filterMap_cons, List.filterMap_nil]
      cases knownLevel v <;> rfl
    cases hv : knownLevel v with
    | some l =>
      refine iff_of_true (by rw [hsplit, hv]; simp [hv]) fun w hw hnone => ?_
      obtain rfl : v = w := Option.some.inj hw
      rw [hv] at hnone
      cases hnone
    | none =>
      rw [Option.bind_some, hv, Option.getD_none]
      refine ⟨fun h w _ _ => h.symm, fun h => (h v rfl hv).symm⟩

end Startup

end TCV.Configuration
