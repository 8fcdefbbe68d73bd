import Contraction.Datum.Document
import Contraction.Report.Figure
import Contraction.Workspace

/-!
# Reports

Everything that a workspace knows about its plan, node by node in pre-order. A `Report` is written
as a text for people, one line a node, or as a document.
-/

namespace Contraction

open Number

/-- What is known of a node. -/
structure NodeReport where
  kind : String
  entry : Entry
  strides : List Int

/-- What is known of a plan. -/
structure Report where
  expression : String
  sizes : Table Int
  elementBytes : Int
  totalOperations : Int
  faulty : List String
  nodes : List NodeReport

/-- What a node is called in a report. -/
def Branch.kindName (b : Branch) : String :=
  if b.isContraction then "contraction" else if b.isPermutation then "permutation" else "leaf"

namespace NodeReport

/-- The report of a node of a workspace. -/
def ofEntry (w : Workspace) (kind : String) (entry : Entry) : NodeReport :=
  let sizeOf (label : Label) := (w.plan.sizeOf? label).getD w.config.defaultSize
  { kind, entry, strides := Contraction.strides (entry.labels.map sizeOf) }

/-- The part of a line that tells of the operations, if they were counted. -/
def operationsText (m : Measures) : String :=
  match m.operations with
  | none => ""
  | some count =>
    " ops=" ++ Figure.count (some count) ++ " (" ++ Figure.share m.operationsPercentage ++
      "%) ai=" ++ Figure.share m.arithmeticIntensity

/-- The line of a node. -/
def line (unit : SizeUnit) (n : NodeReport) : Except FigureFault String := do
  let m := n.entry.measures
  let size ← match m.tensorSize with
    | none => pure "-"
    | some bytes => Figure.bytesIn unit (.int bytes)
  let labels := n.entry.labels.map Label.plainText
  let strides ← Figure.strides labels (n.strides.map .int)
  return "[" ++ n.kind ++ "] " ++ n.entry.id ++ " " ++ bracketedText labels ++
    " size=" ++ size ++ " (" ++ Figure.share m.sizePercentage ++ "%) strides=" ++ strides ++
    operationsText m

/-- A number that may not be known, in a document. -/
def known {α : Type} (make : α → Datum) (value : Option α) : Datum :=
  (value.map make).getD .null

/-- All measures by name. -/
def measuresDatum (m : Measures) : Datum :=
  .mapping [
    ("tensor_size", known .int m.tensorSize),
    ("size_percentage", known .float m.sizePercentage),
    ("normalized_size_percentage", known .float m.normalizedSizePercentage),
    ("operations", known .int m.operations),
    ("operations_percentage", known .float m.operationsPercentage),
    ("normalized_operations_percentage", known .float m.normalizedOperationsPercentage),
    ("byte_accesses", known .int m.byteAccesses),
    ("arithmetic_intensity", known .float m.arithmeticIntensity),
    ("total_operations", known .int m.totalOperations)]

/-- The node as a part of a document. -/
def datum (n : NodeReport) : Datum :=
  .mapping [
    ("id", .text n.entry.id),
    ("kind", .text n.kind),
    ("indices", .list (n.entry.labels.map (known .text))),
    ("sizes", known .list n.entry.sizes),
    ("strides", .list (n.strides.map .int)),
    ("deletable", n.entry.deletable),
    ("metrics", measuresDatum n.entry.measures)]

end NodeReport

namespace Report

/-- The report of a workspace. -/
def ofWorkspace (w : Workspace) : Except Fault Report :=
  w.text.map fun expression =>
    { expression
      sizes := w.plan.sizes
      elementBytes := w.config.elementBytes
      totalOperations := w.totals.operations
      faulty := w.totals.faulty
      nodes := w.plan.root.preorder.filterMap fun n =>
        n.entry?.map (NodeReport.ofEntry w n.kindName) }

/-- The report as a text: the expression, a line for each node, the faulty nodes and the total. -/
def text (r : Report) (unit : SizeUnit) : Except FigureFault String := do
  let nodes ← r.nodes.mapM (·.line unit)
  let expression := if r.expression.isEmpty then "-" else r.expression
  let faulty := if r.faulty.isEmpty then [] else ["[faulty] " ++ ", ".intercalate r.faulty]
  let total := "[total] ops=" ++ Figure.count (some r.totalOperations)
  return "\n".intercalate (["[expr] " ++ expression] ++ nodes ++ faulty ++ [total])

/-- The report as a document. -/
def datum (r : Report) : Datum :=
  .mapping [
    ("expression", .text r.expression),
    ("index_sizes", .mapping (r.sizes.map Datum.int).entries),
    ("element_bytes", .int r.elementBytes),
    ("total_operations", .int r.totalOperations),
    ("faulty_nodes", .list (r.faulty.map .text)),
    ("nodes", .list (r.nodes.map NodeReport.datum))]

end Report

end Contraction
