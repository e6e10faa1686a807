import ServoScript.Reader
import ServoScript.Resolution

/-!
# Assembly

From a script to a resolved program, whose image can be loaded into a controller.
-/

namespace ServoScript

def assemble (file source : String) (profile : Profile) : Except Diag Program :=
  match Program.read file source profile with
  | .error d => .error d
  | .ok p =>
    match Program.complete.run p with
    | .ok _ p => .ok p
    | .error d _ => .error d

end ServoScript
