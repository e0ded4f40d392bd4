import Wireform.Decoder

/-!
# Emissions

What a writer wrote. A writer that fails has still written what came before its fault, so an
emission is the bytes together with the fault that ended them, if one did.
-/

namespace Wireform

/-- Bytes written, and the fault that cut them short. -/
structure Emission where
  bytes : Bytes
  fault? : Option Fault

namespace Emission

/-- Bytes written in full. -/
def ofBytes (bytes : Bytes) : Emission := ⟨bytes, none⟩

end Emission

end Wireform
