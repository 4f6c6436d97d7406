import Mathlib.Data.List.DropRight
import TradingChartViewer.Domain.Labels

/-!
# The configuration

`config::ConfigProvider`: the settings that the command line, the environment
and a file of `key=value` lines give. Strings are lists of characters. The
three parsers write the settings the same way (`Config.assign`) and differ in
their keys. `argv` is a list whose null pointers are `none`; a program of no
arguments at all has the empty one. What the program prints on errors is left out.
-/

namespace TCV.Configuration

open TCV.Domain (isSpace)

inductive LogLevel
  | trace | debug | info | warn | error
deriving DecidableEq, Repr

/-- The configuration and its defaults. -/
structure Config where
  symbol : List Char := "BTCUSDT".toList
  interval : List Char := "1m".toList
  dataDir : List Char := "./data".toList
  cacheDir : List Char := "./cache".toList
  configFile : List Char := []
  restHost : List Char := "api.binance.com".toList
  wsHost : List Char := "stream.binance.com".toList
  wsPathTemplate : List Char := "/ws/%s@kline_%s".toList
  windowWidth : Int := 1280
  windowHeight : Int := 720
  windowFullscreen : Bool := false
  logLevel : LogLevel := .info
  showHelp : Bool := false
  showVersion : Bool := false
deriving DecidableEq, Repr

def kMinWindowSize : Int := 320

/-! ## Values -/

def lowercase (s : List Char) : List Char := s.map Char.toLower

def trim (s : List Char) : List Char := (s.dropWhile isSpace).rdropWhile isSpace

def parseLogLevel (value : List Char) : LogLevel :=
  let lower := lowercase value
  if lower = "trace".toList then .trace
  else if lower = "debug".toList then .debug
  else if lower = "info".toList then .info
  else if lower = "warn".toList || lower = "warning".toList then .warn
  else if lower = "error".toList then .error
  else .info

def parseBool (value : List Char) : Option Bool :=
  let lower := lowercase value
  if lower = "1".toList || lower = "true".toList || lower = "yes".toList || lower = "on".toList then
    some true
  else if lower = "0".toList || lower = "false".toList || lower = "no".toList ||
      lower = "off".toList then
    some false
  else none

/-- `std::stoi` in base 10: the number and the characters after it. It throws
where there are no digits or the number is beyond `int`. -/
def stoi (value : List Char) : Option (Int × List Char) :=
  let unsigned (sign : Int) (rest : List Char) : Option (Int × List Char) :=
    let digits := rest.takeWhile Char.isDigit
    let parsed := sign * Nat.ofDigitChars 10 digits 0
    if digits.isEmpty then none
    else if parsed < -2 ^ 31 || 2 ^ 31 ≤ parsed then none
    else some (parsed, rest.dropWhile Char.isDigit)
  match value.dropWhile isSpace with
  | '-' :: rest => unsigned (-1) rest
  | '+' :: rest => unsigned 1 rest
  | rest => unsigned 1 rest

def parseInt (value : List Char) : Option Int :=
  match stoi value with
  | some (parsed, rest) => if rest.isEmpty then some parsed else none
  | none => none

/-! ## Settings -/

inductive Setting
  | symbol | interval | dataDir | cacheDir | restHost | wsHost | wsPath
  | windowWidth | windowHeight | fullscreen | logLevel
deriving DecidableEq, Repr

/-- What each parser does with a value for a setting. -/
def Config.assign (cfg : Config) (setting : Setting) (value : List Char) : Config :=
  match setting with
  | .symbol => { cfg with symbol := value }
  | .interval => { cfg with interval := value }
  | .dataDir => { cfg with dataDir := value }
  | .cacheDir => { cfg with cacheDir := value }
  | .restHost => { cfg with restHost := value }
  | .wsHost => { cfg with wsHost := value }
  | .wsPath => { cfg with wsPathTemplate := value }
  | .windowWidth =>
    match parseInt value with
    | some width => { cfg with windowWidth := max width kMinWindowSize }
    | none => cfg
  | .windowHeight =>
    match parseInt value with
    | some height => { cfg with windowHeight := max height kMinWindowSize }
    | none => cfg
  | .fullscreen =>
    match parseBool value with
    | some flag => { cfg with windowFullscreen := flag }
    | none => cfg
  | .logLevel => { cfg with logLevel := parseLogLevel value }

/-! ## The environment -/

/-- The variables in the order they are read. -/
def envVariables : List (List Char × Setting) :=
  [("TTP_SYMBOL".toList, .symbol), ("TTP_INTERVAL".toList, .interval),
    ("TTP_DATA_DIR".toList, .dataDir), ("TTP_CACHE_DIR".toList, .cacheDir),
    ("TTP_WINDOW_W".toList, .windowWidth), ("TTP_WINDOW_H".toList, .windowHeight),
    ("TTP_FULLSCREEN".toList, .fullscreen), ("TTP_LOG_LEVEL".toList, .logLevel),
    ("TTP_REST_HOST".toList, .restHost), ("TTP_WS_HOST".toList, .wsHost),
    ("TTP_WS_PATH".toList, .wsPath)]

def parseEnv (getenv : List Char → Option (List Char)) (cfg : Config) : Config :=
  envVariables.foldl (fun cfg entry =>
    match getenv entry.1 with
    | some value => cfg.assign entry.2 value
    | none => cfg) cfg

/-! ## The file -/

def fileSetting (key : List Char) : Option Setting :=
  if key = "symbol".toList then some .symbol
  else if key = "interval".toList then some .interval
  else if key = "dataDir".toList then some .dataDir
  else if key = "cacheDir".toList then some .cacheDir
  else if key = "restHost".toList then some .restHost
  else if key = "wsHost".toList then some .wsHost
  else if key = "windowWidth".toList then some .windowWidth
  else if key = "windowHeight".toList then some .windowHeight
  else if key = "fullscreen".toList then some .fullscreen
  else if key = "logLevel".toList then some .logLevel
  else if key = "wsPath".toList || key = "wsPathTemplate".toList then some .wsPath
  else none

def parseLine (cfg : Config) (line : List Char) : Config :=
  let line := trim line
  if line.isEmpty || line.head? = some '#' then cfg
  else
    match line.dropWhile (· ≠ '=') with
    | [] => cfg
    | _ :: value =>
      match fileSetting (trim (line.takeWhile (· ≠ '='))) with
      | some setting => cfg.assign setting (trim value)
      | none => cfg

/-- `files` gives what a file holds, where it can be opened. `splitOn` has an
empty line after a last newline, which `std::getline` does not read. -/
def parseFile (files : List Char → Option (List Char)) (path : List Char) (cfg : Config) : Config :=
  match files path with
  | none => cfg
  | some content => (content.splitOn '\n').foldl parseLine cfg

/-! ## The command line -/

/-- What `parseCli_` takes an argument for. -/
inductive CliArg
  | help
  | version
  /-- the next argument is the value -/
  | take (setting : Setting)
  | takeConfig
  | config (path : List Char)
  | fullscreen
  | set (setting : Setting) (value : List Char)
  | other
deriving DecidableEq, Repr

def cliArg (arg : List Char) : CliArg :=
  if arg = "--help".toList then .help
  else if arg = "--version".toList then .version
  else if arg = "--symbol".toList || arg = "-s".toList then .take .symbol
  else if arg = "--interval".toList || arg = "-i".toList then .take .interval
  else if arg = "--data-dir".toList || arg = "-d".toList then .take .dataDir
  else if arg = "--cache-dir".toList || arg = "-c".toList then .take .cacheDir
  else if arg = "--config".toList then .takeConfig
  else if "--config=".toList <+: arg then .config (arg.drop 9)
  else if arg = "--window-width".toList || arg = "-w".toList then .take .windowWidth
  else if arg = "--window-height".toList || arg = "-h".toList then .take .windowHeight
  else if arg = "--fullscreen".toList || arg = "-f".toList then .fullscreen
  else if "--fullscreen=".toList <+: arg then .set .fullscreen (arg.drop 13)
  else if arg = "--log-level".toList || arg = "-l".toList then .take .logLevel
  else if arg = "--rest-host".toList then .take .restHost
  else if arg = "--ws-host".toList then .take .wsHost
  else if arg = "--ws-path".toList then .take .wsPath
  else if "--log-level=".toList <+: arg then .set .logLevel (arg.drop 12)
  else if "--window-width=".toList <+: arg then .set .windowWidth (arg.drop 15)
  else if "--window-height=".toList <+: arg then .set .windowHeight (arg.drop 16)
  else if "--data-dir=".toList <+: arg then .set .dataDir (arg.drop 11)
  else if "--cache-dir=".toList <+: arg then .set .cacheDir (arg.drop 12)
  else if "--symbol=".toList <+: arg then .set .symbol (arg.drop 9)
  else if "--interval=".toList <+: arg then .set .interval (arg.drop 11)
  else if "--rest-host=".toList <+: arg then .set .restHost (arg.drop 12)
  else if "--ws-host=".toList <+: arg then .set .wsHost (arg.drop 10)
  else if "--ws-path=".toList <+: arg then .set .wsPath (arg.drop 10)
  else .other

/-- The loop of `parseCli_`, over the arguments after the program's name. An
option whose value is missing does nothing. -/
def parseCli (cfg : Config) : List (Option (List Char)) → Config
  | [] => cfg
  | none :: rest => parseCli cfg rest
  | some arg :: rest =>
    match cliArg arg with
    | .help => parseCli { cfg with showHelp := true } rest
    | .version => parseCli { cfg with showVersion := true } rest
    | .take setting =>
      match rest with
      | some next :: rest => parseCli (cfg.assign setting next) rest
      | rest => parseCli cfg rest
    | .takeConfig =>
      match rest with
      | some next :: rest => parseCli { cfg with configFile := next } rest
      | rest => parseCli cfg rest
    | .config path => parseCli { cfg with configFile := path } rest
    | .fullscreen => parseCli { cfg with windowFullscreen := true } rest
    | .set setting value => parseCli (cfg.assign setting value) rest
    | .other => parseCli cfg rest

/-- The loop of the constructor, which looks for the file's path only. -/
def cliConfigPath (path : List Char) : List (Option (List Char)) → List Char
  | [] => path
  | none :: rest => cliConfigPath path rest
  | some arg :: rest =>
    if arg = "--config".toList then
      match rest with
      | some next :: rest => cliConfigPath next rest
      | rest => cliConfigPath path rest
    else if "--config=".toList <+: arg then cliConfigPath (arg.drop 9) rest
    else cliConfigPath path rest

/-! ## The constructor -/

/-- What a program starts with. -/
structure Startup where
  argv : List (Option (List Char))
  getenv : List Char → Option (List Char)
  files : List Char → Option (List Char)

namespace Startup

def args (p : Startup) : List (Option (List Char)) := p.argv.drop 1

def fileExists (p : Startup) (path : List Char) : Bool := (p.files path).isSome

/-- The constructor up to `parseEnv_`. -/
def loadFile (p : Startup) : Config :=
  let path := cliConfigPath [] p.args
  let load (path : List Char) : Config :=
    if p.fileExists path then { parseFile p.files path {} with configFile := path } else {}
  if !path.isEmpty then load path
  else
    match p.getenv "TTP_CONFIG".toList with
    | some path => load path
    | none => {}

/-- The configuration that `ConfigProvider` ends with. -/
def configProvider (p : Startup) : Config := parseCli (parseEnv p.getenv p.loadFile) p.args

end Startup

end TCV.Configuration
