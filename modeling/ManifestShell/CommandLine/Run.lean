import ManifestShell.CommandLine.Parser
import ManifestShell.CommandLine.Startup
import ManifestShell.Error
import ManifestShell.Settings.Storage
import ManifestShell.Shell.History

/-! Carrying out a command line: a subcommand, or else a shell. -/
namespace ManifestShell

/-! ### Completion scripts -/

inductive HostShell where
  | bash
  | zsh
  | fish
  deriving DecidableEq, Repr

namespace HostShell

def ofName (name : Text) : Except ConfigError HostShell :=
  let t := Text.asciiLower name
  if t = "bash".toList then .ok bash
  else if t = "zsh".toList then .ok zsh
  else if t = "fish".toList then .ok fish
  else .error (.other ("Unsupported shell: ".toList ++ name ++
    ". Supported shells: bash, zsh, fish".toList))

def bashLines : List Text := [
  "# Complete query lines for `mediaxml-shell complete`",
  "_mediaxml_shell_enhanced() \x7b",
  "    local cur prev words cword",
  "    _init_completion || return",
  "",
  "    if [[ \"$\x7bwords[1]\x7d\" == \"complete\" && $cword -eq 2 ]]; then",
  "        local IFS=$'\\n'",
  "        COMPREPLY=($(mediaxml-shell --no-color -q complete -- \"$cur\" 2>/dev/null))",
  "        return 0",
  "    fi",
  "",
  "    _mediaxml__shell \"$@\"",
  "\x7d",
  "",
  "complete -F _mediaxml_shell_enhanced mediaxml-shell"]

def zshLines : List Text := [
  "# Complete query lines for `mediaxml-shell complete`",
  "_mediaxml_shell_queries() \x7b",
  "    local -a candidates",
  "    candidates=(\"$\x7b(@f)$(mediaxml-shell --no-color -q complete -- \"$PREFIX\" 2>/dev/null)\x7d\")",
  "    compadd -Q -U -- $candidates",
  "\x7d",
  "",
  "_mediaxml_shell_enhanced() \x7b",
  "    if [[ $\x7bwords[2]\x7d == \"complete\" && $CURRENT -eq 3 ]]; then",
  "        _mediaxml_shell_queries",
  "        return 0",
  "    fi",
  "",
  "    _mediaxml-shell \"$@\"",
  "\x7d",
  "",
  "compdef _mediaxml_shell_enhanced mediaxml-shell"]

def fishLines : List Text := [
  "# Complete query lines for `mediaxml-shell complete`",
  "function __mediaxml_shell_queries",
  "    mediaxml-shell --no-color -q complete -- (commandline -ct) 2>/dev/null",
  "end",
  "",
  "complete -c mediaxml-shell -n \"__fish_seen_subcommand_from complete\" -f -a \"(__mediaxml_shell_queries)\""]

def hookLines : HostShell → List Text
  | bash => bashLines
  | zsh => zshLines
  | fish => fishLines

def hook (h : HostShell) : Text := h.hookLines.flatMap (· ++ ['\n'])

end HostShell

/-! ### Subcommands and shells -/

def versionText : Text := "0.9.0"

def versionLines : Text :=
  "mediaxml-shell version ".toList ++ versionText ++ "\nRust version: 1.91\n".toList

def banner : Text :=
  "mediaxml-shell ".toList ++ versionText ++
    "\nType a query and press Tab to complete, .help for commands.\n".toList

def completeLine (env : Environment) (a : Arguments) (s : Settings) (line : Text) :
    Except ShellError Text :=
  match a.session env s.display with
  | .ok session =>
    let cs := (Engine.ofSettings s.completion).candidates line session.context
    .ok ((Printer.ofSettings s.display).candidates line cs)
  | .error e => .error e.toShellError

def validateSettings (env : Environment) (a : Arguments) : Text × Except ConfigError Unit :=
  let path := a.settingsPath env
  let head := "Validating configuration file: ".toList ++ path ++ ['\n']
  let checked :=
    if env.disk.exists? path then (Settings.readFile env path).bind Settings.validate
    else .error (.missing path)
  match checked with
  | .ok _ => (head ++ "Configuration is valid\n".toList, .ok ())
  | .error e => (head, .error e)

def showSettings (env : Environment) (a : Arguments) (s : Settings) : Text :=
  "# Configuration file: ".toList ++ a.settingsPath env ++ "\n\n".toList ++ s.toToml ++ ['\n']

def Subcommand.run (env : Environment) (a : Arguments) (s : Settings) :
    Subcommand → Text × Except ShellError Unit
  | .complete line _ =>
    match completeLine env a s line with
    | .ok t => (t ++ ['\n'], .ok ())
    | .error e => ([], .error e)
  | .version => (versionLines, .ok ())
  | .completion shell =>
    match HostShell.ofName shell with
    | .ok h => (h.hook, .ok ())
    | .error e => ([], .error (.config e))
  | .config showIt validate =>
    let (printed, checked) := if validate then validateSettings env a else ([], .ok ())
    match checked with
    | .error e => (printed, .error (.config e))
    | .ok _ => (printed ++ if showIt || !validate then showSettings env a s else [], .ok ())

structure Shell where
  session : Session
  engine : Engine
  history : History

/-- Starts a shell.  The history may leave a file on the disk. -/
def Shell.start (env : Environment) (a : Arguments) (s : Settings) :
    Disk × Except ShellError Shell :=
  match a.session env s.display with
  | .error e => (env.disk, .error e.toShellError)
  | .ok session =>
    let (disk, history) := History.ofSettings env.disk s.history
    (disk, history.map fun h => ⟨session, Engine.ofSettings s.completion, h⟩)

/-- Enters one line: the shell after it, and what goes to the output and to the errors.  A blank
line is passed over. -/
def Shell.enter (sh : Shell) (line : Text) : Shell × Text × Text :=
  if (Text.trim line).isEmpty then (sh, [], [])
  else
    let (session, result) := sh.session.enter sh.engine line
    let next := { sh with session := session, history := sh.history.remember line }
    match result with
    | .output (some t) => (next, t ++ ['\n'], [])
    | .output none | .breakdown => (next, [], [])
    | .error e => (next, [], Painter.error ⟨sh.session.color⟩ e.message ++ ['\n'])

inductive Outcome where
  /-- The settings cannot be had. -/
  | unconfigured (e : ConfigError)
  | failed (s : Settings) (e : ShellError)
  | done (s : Settings)
  /-- There is no subcommand, so a shell is to be started. -/
  | interactive (s : Settings)

/-- The result of the program up to the point where a shell would start. -/
structure Run where
  outcome : Outcome
  out : Text
  err : Text

def Arguments.run (env : Environment) (a : Arguments) : Run :=
  match a.settings env with
  | .error e => ⟨.unconfigured e, [], a.warnings env⟩
  | .ok s =>
    match a.command with
    | none => ⟨.interactive s, if a.quiet then [] else banner, a.warnings env⟩
    | some c =>
      match c.run env a s with
      | (printed, .ok _) => ⟨.done s, printed, a.warnings env⟩
      | (printed, .error e) => ⟨.failed s e, printed, a.warnings env⟩

end ManifestShell
