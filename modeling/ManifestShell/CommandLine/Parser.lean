import ManifestShell.CommandLine.Arguments

/-! Reading the command line: its levels, and what is read on them. -/
namespace ManifestShell
namespace Level

def commandNames : List Text := ["complete", "version", "completion", "config", "help"]

def program : Level where
  longs := [
    ("help", .help),
    ("version", .version),
    ("config", .parameter .config),
    ("no-color", .switch .noColor),
    ("quiet", .switch .quiet),
    ("verbose", .switch .verbose),
    ("vv", .switch .veryVerbose),
    ("root", .parameter .root),
    ("bind", .parameter .bind),
    ("function", .parameter .function),
    ("document", .parameter .document),
    ("child", .parameter .child)]
  shorts := [
    ('h', .help),
    ('V', .version),
    ('c', .parameter .config),
    ('q', .switch .quiet),
    ('v', .switch .verbose)]
  commands := commandNames

def complete : Level where
  longs := [("help", .help), ("format", .parameter .format)]
  shorts := [('h', .help)]
  wordCount := 1
  dashedWords := true

def version : Level where
  longs := [("help", .help)]
  shorts := [('h', .help)]

def completion : Level where
  longs := [("help", .help)]
  shorts := [('h', .help)]
  wordCount := 1

def config : Level where
  longs := [("help", .help), ("show", .switch .showSettings), ("validate", .switch .validate)]
  shorts := [('h', .help)]

end Level

namespace Subcommand

def help : List Text → UsageError
  | [] => .helpWanted
  | [name] => if Level.commandNames.contains name then .helpWanted else .unknownCommand
  | _ => .unknownCommand

def parse (name : Text) (args : List Text) : Except UsageError Subcommand :=
  if name = "complete".toList then do
    let g ← Level.complete.readAll args
    return .complete (g.words.headD []) (g.value? .format)
  else if name = "version".toList then do
    let _ ← Level.version.readAll args
    return .version
  else if name = "completion".toList then do
    let g ← Level.completion.readAll args
    return .completion (g.words.headD [])
  else if name = "config".toList then do
    let g ← Level.config.readAll args
    return .config (g.has .showSettings) (g.has .validate)
  else .error (help args)

end Subcommand

namespace Arguments

def ofGiven (g : Given) (command : Option Subcommand) : Arguments where
  config := g.value? .config
  noColor := g.has .noColor
  quiet := g.has .quiet
  verbose := g.has .verbose
  veryVerbose := g.has .veryVerbose
  root := g.value? .root
  bindings := g.valuesOf .bind
  functions := g.valuesOf .function
  document := g.value? .document
  children := g.valuesOf .child
  command := command

def parse (args : List Text) : Except UsageError Arguments := do
  let (g, rest) ← Level.program.read false {} args
  let command ← match rest with
    | some (name, args) => (Subcommand.parse name args).map some
    | none => .ok none
  return ofGiven (← g.settle) command

end Arguments
end ManifestShell
