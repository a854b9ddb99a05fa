import AccessWindows.World.Registry
import AccessWindows.World.Routes
import AccessWindows.World.Streams

/-!
# Worlds

Three collaborators that need no network, with faults and delays to order.  Their answers are a
function of the question as long as the world stays the same.
-/

namespace AccessWindows

/-- Collaborators in memory. -/
structure World where
  routes : RoutingTable := {}
  registry : Registry := {}
  streams : StreamIndex := {}

/-- The services of a world.  What permission is asked for makes no difference to which routes
there are, and the stream index answers at once. -/
def World.collaborators (w : World) : Collaborators Id where
  chains pattern _ principal := ⟨w.routes.delay, w.routes.answer pattern principal⟩
  credential hash := ⟨w.registry.delay, w.registry.answer hash⟩
  resource stream := ⟨0, w.streams.answer stream⟩

end AccessWindows
