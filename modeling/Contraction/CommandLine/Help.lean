/-!
# Help

What the command line tells about itself.
-/

namespace Contraction.CommandLine.Help

def lines (texts : List String) : String :=
  "\n".intercalate texts ++ "\n"

def program : String := lines [
  "usage: einsum-tree [-h] [--verbose] \x7bexplain,classify,subtree\x7d ...",
  "",
  "Einsum tree command line utilities",
  "",
  "positional arguments:",
  "  \x7bexplain,classify,subtree\x7d",
  "    explain             Print per-node sizes, strides and operation counts",
  "    classify            Classify the dimensions of one binary contraction",
  "    subtree             Extract the expression spanned by the selected node",
  "                        ids",
  "",
  "options:",
  "  -h, --help            show this help message and exit",
  "  --verbose             Enable debug logging"]

def explain : String := lines [
  "usage: einsum-tree explain [-h] [--sizes SIZES]",
  "                           [--element-bytes ELEMENT_BYTES]",
  "                           [--unit \x7bBytes,KiB,MiB\x7d] [--json]",
  "                           expression",
  "",
  "positional arguments:",
  "  expression            Tree in bracket notation",
  "",
  "options:",
  "  -h, --help            show this help message and exit",
  "  --sizes SIZES         Comma-separated index sizes, e.g. i=3,j=4 (missing",
  "                        labels default to 2)",
  "  --element-bytes ELEMENT_BYTES",
  "                        Bytes per tensor element (default: 4)",
  "  --unit \x7bBytes,KiB,MiB\x7d",
  "                        Unit used for tensor sizes (default: KiB)",
  "  --json                Emit a JSON document"]

def classify : String := lines [
  "usage: einsum-tree classify [-h] node left right",
  "",
  "positional arguments:",
  "  node        Output indices, e.g. m,n",
  "  left        Left operand indices, e.g. m,k",
  "  right       Right operand indices, e.g. k,n",
  "",
  "options:",
  "  -h, --help  show this help message and exit"]

def subtree : String := lines [
  "usage: einsum-tree subtree [-h] expression ids [ids ...]",
  "",
  "positional arguments:",
  "  expression  Tree in bracket notation",
  "  ids         Node ids, e.g. node_0 node_2",
  "",
  "options:",
  "  -h, --help  show this help message and exit"]

end Contraction.CommandLine.Help
