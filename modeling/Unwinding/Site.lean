/-!
# Sites

A site is a place in a program: a file, a line and a function. Regions, calls, guard
scopes and raises carry the site they were written at, and every text about them shows
it in the one form defined here.
-/

namespace Unwinding

/-- A line of a file, and the function that holds it. -/
structure Site where
  file : String
  line : Nat
  function : String
  deriving DecidableEq, Repr, Inhabited

namespace Site

/-- The one written form of a site, shared by traces, reports and notices. -/
def text (site : Site) : String :=
  s!"{site.file}: at line {site.line} in {site.function}"

end Site

end Unwinding
