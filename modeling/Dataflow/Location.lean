/-!
# Names of storage locations

Every allocating instruction is a *site*.  The analyses know one location for each site; a running
program makes a fresh one each time it comes by.
-/

namespace Dataflow

/-- The location that stands for everything allocated at a site. -/
def siteName (site : Nat) : String := s!"ref_{site}"

/-- The `n`-th location of a run, allocated at a site. -/
def cellName (site n : Nat) : String := s!"{siteName site}_{n}"

end Dataflow
