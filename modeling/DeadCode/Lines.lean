/-! # Texts made of lines -/

namespace DeadCode

/-- Lines as a text in which each ends with a line feed. -/
def unlines (lines : List String) : String :=
  String.join (lines.map (· ++ "\n"))

end DeadCode
