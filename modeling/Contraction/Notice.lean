import Contraction.Dimensions.Unclassified
import Contraction.Expression.Reading
import Contraction.Measurement.Settings
import Contraction.Workspace.RefusedEdit

/-!
# Notices

What the library tells about its work besides the answers: each notice has a level of importance and
a channel, by which a reader may choose, and a text.
-/

namespace Contraction

/-- How important a notice is. -/
inductive Level where
  | debug
  | info
  | warning
deriving DecidableEq, Repr

namespace Level

def name : Level → String
  | debug => "DEBUG"
  | info => "INFO"
  | warning => "WARNING"

end Level

/-- Something worth telling. -/
inductive Notice where
  /-- A text is no expression. -/
  | rejectedExpression (error : Misreading)
  /-- A contraction has no dimensions. -/
  | failedClassification (error : Unclassified)
  /-- A node is no contraction of its operands. -/
  | faultyNode (id : String) (error : Unclassified)
  /-- A patch lacks the id of a node or its labels. -/
  | incompleteUpdate (item : Datum)
  /-- There is no patch. -/
  | missingPatch
  /-- A patch takes all labels of some nodes. -/
  | emptiedNodes (ids : List String)
  /-- A patch names a node that is not there. -/
  | skippedUpdate (id : String)
  /-- A workspace is given a text that is no expression. -/
  | unreadText (text : Option String) (error : Misreading)
  /-- A workspace is given sizes that cannot be used together with a text. -/
  | unusableSizes (text : Option String) (error : SettingError)
  /-- A workspace has taken the plan that a text writes. -/
  | loadedText (written : String)
  /-- A workspace refuses sizes. -/
  | rejectedSizes (sizes : Table Datum) (error : SettingError)
  /-- A workspace refuses settings. -/
  | rejectedSettings (fault : SettingsFault)
  /-- The operations of a plan cannot be counted. -/
  | faultyNodes (ids : List String)
  /-- A workspace refuses an edit. -/
  | rejectedEdit (error : RefusedEdit)
  /-- A node that was asked for has no dimensions. -/
  | unclassifiedNode (id : String) (error : Unclassified)

namespace Notice

def level : Notice → Level
  | rejectedExpression _ => .debug
  | loadedText _ | rejectedEdit _ => .info
  | _ => .warning

def channel : Notice → String
  | rejectedExpression _ => "einsum_tree.core.parser"
  | failedClassification _ => "einsum_tree.core.classifier"
  | faultyNode .. => "einsum_tree.core.metrics"
  | incompleteUpdate _ | missingPatch | emptiedNodes _ | skippedUpdate _ => "einsum_tree.core.tree"
  | _ => "einsum_tree.core.session"

/-- A text as a message shows it, where there may be none. -/
def shownText (text : Option String) : String :=
  ((text.map Datum.text).getD .null).shown

def text : Notice → String
  | rejectedExpression error =>
    "rejected expression " ++ Text.quoted error.source ++ ": " ++ error.short
  | failedClassification error => "classification failed: " ++ error.message
  | faultyNode id error => "node " ++ id ++ " is faulty: " ++ error.message
  | incompleteUpdate item => "ignoring index update without id or value: " ++ item.shown
  | missingPatch => "update_indices called without a patch"
  | emptiedNodes ids => "index update rejected; empty index list for " ++ ", ".intercalate ids
  | skippedUpdate id => "node " ++ id ++ " not found; index update skipped"
  | unreadText text error => "could not parse " ++ shownText text ++ ": " ++ error.short
  | unusableSizes text error => "could not load " ++ shownText text ++ ": " ++ error.message
  | loadedText written => "loaded " ++ written
  | rejectedSizes sizes error =>
    "sizes " ++ (Datum.mapping sizes.entries).shown ++ " rejected: " ++ error.message
  | rejectedSettings fault => "metrics settings rejected: " ++ fault.message
  | faultyNodes ids => "operation metrics unavailable; faulty nodes: " ++ ", ".intercalate ids
  | rejectedEdit error => error.message
  | unclassifiedNode id error => "node " ++ id ++ ": " ++ error.message

/-- The notice on one line, with its level and channel. -/
def line (n : Notice) : String :=
  n.level.name ++ " " ++ n.channel ++ ": " ++ n.text

end Notice

/-- The notices of a failed reading. An empty text is not worth one. -/
def Misreading.notices (error : Misreading) : List Notice :=
  if error.source.isEmpty then [] else [.rejectedExpression error]

end Contraction
