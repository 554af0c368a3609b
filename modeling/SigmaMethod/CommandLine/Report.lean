import SigmaMethod.Json.Records
import SigmaMethod.Matching.Rank
import SigmaMethod.Signature.Query
import SigmaMethod.Text.Decimal
import SigmaMethod.Text.Table

/-!
# Reports

What the program prints: an analysis as tables or as JSON, and the statistics of a problem.
-/

namespace SigmaMethod.CommandLine

open Text

def offsetTables (a : Analysis) : List Char :=
  let equationRows := (a.c.toList.zip a.columnOf.toList).zipIdx.map fun ((c, j), i) =>
    [digits i, intText c, digits j]
  let variableRows := a.d.toList.zipIdx.map fun (d, j) => [digits j, intText d]
  tableText (["EQUATION".toList, "OFFSET".toList, "SOLVES FOR".toList] :: equationRows) ++
    '\n' :: tableText (["VARIABLE".toList, "OFFSET".toList] :: variableRows) ++ ['\n']

def indexLine (index : Int) : List Char := tableText [["structural index".toList, intText index]]

def analysisText (a : Analysis) : List Char := (Json.analysis.tree a).indented 0 ++ ['\n']

variable {n : Nat}

def statistics (file : String) (m : Signature n) : List Char :=
  let rank := m.rankReport.rank
  let line (text : String) (value : List Char) := text.toList ++ value ++ ['\n']
  line "Statistics for " (file.toList ++ [':']) ++
    line "  Dimension       : " (digits n) ++
    line "  Non-zeros       : " (digits m.nnz) ++
    line "  Density         : " (fixedText 4 m.density) ++
    line "  Structural rank : " (digits rank) ++
    if rank < n then line "  Structurally singular" [] else []

end SigmaMethod.CommandLine
