import Foreman.WorkGraph

/-!
# The builds around a build

One build can be led on its own, among neighbours that only hand out their tasks and publish
outcomes. They note what they are asked for.
-/

namespace Foreman

/-- What a neighbour was asked for. -/
inductive Inquiry
  | request (build : BuildId) (path : TaskPath)
  | observe (build : BuildId) (path : TaskPath)
  deriving DecidableEq, Repr

def Inquiry.text : Inquiry → String
  | request build path => "request " ++ build.name ++ path.text
  | observe build path => "observe " ++ build.name ++ path.text

/-- The graphs of the neighbours, and the inquiries so far. -/
structure Neighbours where
  graphs : Std.TreeMap BuildId WorkGraph
  inquiries : List Inquiry

namespace Neighbours

def none : Neighbours := ⟨∅, []⟩

def add (n : Neighbours) (registry : Registry) : Neighbours :=
  { n with graphs := n.graphs.insert registry.build (.new registry) }

/-- Hand out a task of a neighbour. -/
def handOut (n : Neighbours) (build : BuildId) (path : TaskPath) :
    Except ExportError Neighbours :=
  match n.graphs[build]? with
  | some g => (g.handOut path).map fun g => { n with graphs := n.graphs.insert build g }
  | .none => .error (.unknownBuild build)

def answer (inquiry : Inquiry) (build : BuildId) (path : TaskPath) (n : Neighbours) :
    Except ExportError Unit × Neighbours :=
  let n := { n with inquiries := n.inquiries ++ [inquiry] }
  match n.handOut build path with
  | .ok n => (.ok (), n)
  | .error e => (.error e, n)

def crossBuild : CrossBuild Neighbours where
  request build path := answer (.request build path) build path
  observe build path := answer (.observe build path) build path

def outcome? (n : Neighbours) (build : BuildId) (path : TaskPath) : Option ExportOutcome :=
  (n.graphs[build]?).bind fun g => g.exports.outcome? path

/-- Hand out a task of a neighbour and publish its outcome; the first outcome stays. -/
def publish (n : Neighbours) (build : BuildId) (path : TaskPath) (outcome : ExportOutcome) :
    Except ExportError Neighbours := do
  let n ← n.handOut build path
  return { n with graphs := n.graphs.modify build fun g =>
    { g with exports := g.exports.publish path outcome } }

end Neighbours

end Foreman
