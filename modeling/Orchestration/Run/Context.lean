/-!
# Contexts of runs

A run and the workflows nested in it share a request id; each knows how deep it is nested.
-/

namespace Orchestration

/-- What a workflow that runs knows about its place. -/
structure Context where
  requestId : String
  depth : Nat
deriving DecidableEq

namespace Context

def top (requestId : String) : Context := ⟨requestId, 0⟩

/-- The context of a workflow inside, unless the limit is reached. -/
def nested? (ctx : Context) (limit : Nat) : Option Context :=
  if ctx.depth < limit then some { ctx with depth := ctx.depth + 1 } else none

end Context

end Orchestration
