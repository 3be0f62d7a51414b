import Uplift.Process.Basic
import Uplift.Workspace.Upgrade

/-!
# Installing packages by a command

The installer of a workspace is a command that ends well.
-/

set_option autoImplicit false

namespace Uplift.Workspace

/-- How the status of a failed command is reported. -/
def statusText : Process.Status → String
  | .exited code => toString code
  | .killed _ => "signal"

/-- The installer that runs a command. -/
def commandInstaller (machine : Process.Machine) (command : List String) : Installer :=
  fun dir tree =>
    match command with
    | [] => (.error (.configuration "install_command must not be empty"), tree)
    | program :: arguments =>
      let display := " ".intercalate command
      match machine { program, arguments, environment := [], dir, input := .empty } tree with
      | (.error error, tree) => (.error (.install display "not started" error.message), tree)
      | (.ok completion, tree) =>
        if completion.status.isSuccess then (.ok (), tree)
        else
          let errors := Text.decodeLossy completion.errors
          (.error (.install display (statusText completion.status) errors), tree)

end Uplift.Workspace
