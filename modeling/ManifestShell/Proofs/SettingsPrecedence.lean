import ManifestShell.CommandLine.Startup
import ManifestShell.Proofs.SettingFields

/-! Where the settings in force come from.
What the command line says about a field counts first, then what the settings file says, and then
the default.  A file whose settings are not valid as a whole counts for no field.  Nothing that the
command line can say makes valid settings invalid, so the settings in force are always valid. -/
namespace ManifestShell.Settings

variable {env : Environment} {path : Option Text} {home : Text} {a : Arguments} {s file : Settings}

/-! ### The file -/

end ManifestShell.Settings

namespace ManifestShell.Arguments

open Settings

end ManifestShell.Arguments
