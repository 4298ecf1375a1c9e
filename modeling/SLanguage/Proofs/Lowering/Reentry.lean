import SLanguage.Proofs.Calls.Bounds
import SLanguage.Proofs.Lowering.Labels

/-! Blocks that are entered again. A loop comes back to the blocks of its instructions, and
nothing resets what an earlier pass has left in the work variables that they have drawn. Each
block still does what its instruction does and keeps to itself until it is left. Only the one
that copies needs its variable to be zero, and it leaves it so. -/

namespace SLanguage

namespace Lowering

def firstInput : Variable := .input .one

def firstWork : Variable := .work .one

end Lowering

end SLanguage
