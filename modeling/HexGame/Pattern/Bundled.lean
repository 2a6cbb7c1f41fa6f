/-! # The catalogue that comes with the program -/
namespace HexGame

def defaultCataloguePath : String := "data/patterns.txt"

/-- Stones, adjacent pairs, bridges, contacts and isolated stones. -/
def bundledCatalogueText : String :=
"# Pattern catalogue for the pattern evaluator.
#
# Each pattern starts with ###, each rotation variant with ---.
# Cell codes: . empty, * own stone, / opponent stone, ? any.
# Variants listed after `exclude` never mark rows or columns as occupied.

### stone
---
*

### adjacent pair
---
* *
---
*
*
---
? *
* ?

### bridge with both carriers empty
---
* .
. *
---
? *
. .
* ?
---
? . *
* . ?

### contact with the opponent
exclude
---
* /
---
/ *

### isolated stone
---
? . .
. * .
. . ?
"

end HexGame
