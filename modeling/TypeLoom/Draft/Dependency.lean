import TypeLoom.Draft.Batch
import TypeLoom.Graph.Topological
import TypeLoom.Graph.Cycle

/-!
# Order of a batch

A type must come after its base, its enclosing type and the interfaces it takes from the batch; it
should come after the types that its members mention.
-/

namespace TypeLoom

namespace Descriptor

def hardDependencies (d : Descriptor) : List TypeHandle :=
  (d.base.bind Signature.draft?).toList ++ d.declaring.toList ++ d.interfaceDrafts

/-- The signatures that the members mention: constructors, methods, fields, properties, events. -/
def mentionedSignatures (d : Descriptor) : List Signature :=
  ((d.constructors.toList ++ d.methods.toList).flatMap fun m => m.signature.returns
    :: m.signature.types)
    ++ d.fields.toList.map (·.signature) ++ d.properties.toList.map (·.signature)
    ++ d.events.toList.map (·.type)

def softDependencies (d : Descriptor) : List TypeHandle :=
  (d.mentionedSignatures.filterMap Signature.draft?).eraseDups

end Descriptor

namespace Batch

/-- Edges lead from what comes first to what depends on it; the datum says whether the edge is
hard. -/
def dependencyGraph (b : Batch) : Graph.Digraph Bool :=
  b.types.foldl (fun g d =>
    let edgesTo (hard : Bool) (g : Graph.Digraph Bool) (on : TypeHandle) : Graph.Digraph Bool :=
      if on = d.handle then g else g.addEdge on.index d.handle.index hard
    d.softDependencies.foldl (edgesTo false) (d.hardDependencies.foldl (edgesTo true) g))
    (.ofSize b.types.size)

/-- The handles so that hard dependencies come first. -/
def order (b : Batch) : Except Fault (List TypeHandle) :=
  let g := b.dependencyGraph
  match Graph.topologicalOrder g id with
  | .ok nodes => .ok (nodes.map TypeHandle.mk)
  | .error left =>
    let nodes := (Graph.findCycle? g left).getD left
    .error (.invalidOperation ("Cyclic type dependency: "
      ++ " -> ".intercalate (nodes.map fun node => b.fullName ⟨node⟩)))

end Batch

end TypeLoom
