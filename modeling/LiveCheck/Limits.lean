/-!
# Limits

Bounds on recursion and on the size of results. Input that exceeds one of them is answered by a
diagnostic or by a less precise type.
-/

namespace LiveCheck.Limits

/-- Nested expressions the parser descends into before it gives up on an expression. -/
def parseDepth : Nat := 100

/-- Evaluations in progress at the same time, unless the options say otherwise. -/
def evaluationDepth : Nat := 200

/-- Classes on one chain of bases when a method resolution order is computed. -/
def resolutionOrder : Nat := 64

/-- Members a union keeps before it widens to the unknown type. -/
def unionMembers : Nat := 64

/-- Pairs of types under comparison at the same time. -/
def assignability : Nat := 64

/-- Nested types a type's text shows. -/
def formatting : Nat := 32

/-- Imports followed in a row when a declaration is traced to its source. -/
def aliasChain : Nat := 32

end LiveCheck.Limits
