import CodeIndex.Settings
import CodeIndex.Store

set_option autoImplicit false

/-!
# Stored settings

The settings file of a project.  A file that is missing or cannot be read has nothing but defaults in it.
-/

namespace CodeIndex.Settings

open Action

def load (root : String) : Action Settings := do
  match ← Store.contents (Path.join root fileName) with
  | .ok bytes => return ((String.fromUTF8? bytes).map ofText).getD .default
  | .error _ => return .default

end CodeIndex.Settings
