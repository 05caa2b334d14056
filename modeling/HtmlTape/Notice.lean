/-!
# Notices

One-line remarks on the progress of the work, each with the part of the library that makes it.
-/

namespace HtmlTape

/-- A remark and the part of the library it comes from. -/
structure Notice where
  topic : String
  message : String
deriving DecidableEq

end HtmlTape
