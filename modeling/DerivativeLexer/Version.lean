/-! # Version -/

namespace DerivativeLexer

def version : String := "0.3.0"

end DerivativeLexer
