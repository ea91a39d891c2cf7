import Compliance.Digest.Sha256
import Compliance.Report.Graph

namespace Compliance

def Impact.weightText (i : Impact) : String := (i.weight.map fun w => toString w.toNat).getD ""

namespace Job

def nodeLine (i : Identity) (type : JobType) (code : Option CodeId) : String :=
  "node:" ++ word type ++ ":" ++ i.text ++ (code.map (":" ++ ·)).getD ""

def line (j : Job) : String := nodeLine j.identity j.type (j.origin.map (·.2))

def edgeLine (parent child : Identity) (i : Impact) : String :=
  "edge:" ++ parent.text ++ ">" ++ child.text ++ ":" ++ word i.scoring ++ ":" ++ i.weightText

def lines (j : Job) : List String :=
  j.line :: j.children.map fun c => edgeLine j.identity c.1 c.2

end Job

namespace Graph

def lines (g : Graph) : List String :=
  (g.jobs.flatMap Job.lines).mergeSort fun a b => decide (a ≤ b)

def checksumText (g : Graph) : String :=
  "v1:" ++ String.join (g.lines.map (· ++ "\n"))

def checksum (g : Graph) : String := Digest.sha256Hex g.checksumText.toUTF8.toList

end Graph

end Compliance
