import LiveCheck.Text.Position

/-!
# Diagnostics

Every problem the analysis reports has a number. A table gives each number its severity, the kind of
fault it stands for and the template of its message; `{0}`, `{1}`, ... in a template stand for
the arguments of the report.
-/

namespace LiveCheck

/-- How serious a diagnostic is. -/
inductive Severity
  | warning
  | error
  | information
deriving Repr, DecidableEq, Inhabited

/-- The word that reports use for a severity. -/
def Severity.label : Severity → String
  | .warning => "warning"
  | .error => "error"
  | .information => "information"

/-- Which stage of the analysis a fault belongs to. -/
inductive FaultKind
  /-- Text that is not a well-formed module. -/
  | grammar
  /-- A statement in a scope that does not admit it. -/
  | binding
  /-- A name, import or attribute that leads nowhere. -/
  | resolution
  /-- Types that do not fit together. -/
  | type
  /-- An evaluation that was cut off. -/
  | cycleGuard
deriving Repr, DecidableEq, Inhabited

/-- The word that reports use for a kind of fault. -/
def FaultKind.label : FaultKind → String
  | .grammar => "syntax"
  | .binding => "binding"
  | .resolution => "resolution"
  | .type => "type"
  | .cycleGuard => "cycleGuard"

/-! ## Numbers -/

namespace Code

def unexpectedToken : Nat := 1001
def expectedExpression : Nat := 1002
def expectedIndentedBlock : Nat := 1003
def unexpectedIndent : Nat := 1004
def inconsistentDedent : Nat := 1005
def unterminatedString : Nat := 1006
def unclosedBracket : Nat := 1007
def invalidCharacter : Nat := 1008
def invalidAssignmentTarget : Nat := 1009
def expectedName : Nat := 1010
def expectedToken : Nat := 1011

def duplicateParameter : Nat := 2001
def returnOutsideFunction : Nat := 2002
def nonlocalAtModuleLevel : Nat := 2003
def loopControlOutsideLoop : Nat := 2004

def undefinedName : Nat := 3001
def unresolvedImport : Nat := 3002
def unknownImportSymbol : Nat := 3003
def unknownAttribute : Nat := 3004

def argumentTypeMismatch : Nat := 4001
def argumentCountMismatch : Nat := 4002
def unsupportedOperator : Nat := 4003
def notCallable : Nat := 4004
def notSubscriptable : Nat := 4005
def assignmentTypeMismatch : Nat := 4006
def unknownKeywordArgument : Nat := 4007
def returnTypeMismatch : Nat := 4008

def evaluationTooDeep : Nat := 5001

end Code

/-! ## The table -/

/-- One row of the table of diagnostics. -/
structure Rule where
  code : Nat
  severity : Severity
  kind : FaultKind
  /-- The message with places for its arguments. -/
  template : String
deriving Repr, DecidableEq, Inhabited

/-- The rows, by ascending number. -/
def rules : List Rule :=
  [⟨Code.unexpectedToken, .error, .grammar, "Unexpected token '\x7b0\x7d'"⟩,
    ⟨Code.expectedExpression, .error, .grammar, "Expected expression"⟩,
    ⟨Code.expectedIndentedBlock, .error, .grammar, "Expected indented block"⟩,
    ⟨Code.unexpectedIndent, .error, .grammar, "Unexpected indentation"⟩,
    ⟨Code.inconsistentDedent, .error, .grammar, "Unindent not expected"⟩,
    ⟨Code.unterminatedString, .error, .grammar, "String literal is unterminated"⟩,
    ⟨Code.unclosedBracket, .error, .grammar, "'\x7b0\x7d' was not closed"⟩,
    ⟨Code.invalidCharacter, .error, .grammar, "Invalid character in identifier"⟩,
    ⟨Code.invalidAssignmentTarget, .error, .grammar, "Expression cannot be assignment target"⟩,
    ⟨Code.expectedName, .error, .grammar, "Expected name"⟩,
    ⟨Code.expectedToken, .error, .grammar, "Expected '\x7b0\x7d'"⟩,
    ⟨Code.duplicateParameter, .error, .binding, "Duplicate parameter '\x7b0\x7d'"⟩,
    ⟨Code.returnOutsideFunction, .error, .binding,
      "'return' can be used only within a function"⟩,
    ⟨Code.nonlocalAtModuleLevel, .error, .binding,
      "Nonlocal declaration not allowed at module level"⟩,
    ⟨Code.loopControlOutsideLoop, .error, .binding,
      "'\x7b0\x7d' can be used only within a loop"⟩,
    ⟨Code.undefinedName, .error, .resolution, "'\x7b0\x7d' is not defined"⟩,
    ⟨Code.unresolvedImport, .error, .resolution, "Import '\x7b0\x7d' could not be resolved"⟩,
    ⟨Code.unknownImportSymbol, .error, .resolution, "'\x7b0\x7d' is unknown import symbol"⟩,
    ⟨Code.unknownAttribute, .error, .resolution,
      "Cannot access attribute '\x7b0\x7d' for type '\x7b1\x7d'"⟩,
    ⟨Code.argumentTypeMismatch, .error, .type,
      "Argument of type '\x7b0\x7d' cannot be assigned to parameter '\x7b1\x7d' of type '\x7b2\x7d'"⟩,
    ⟨Code.argumentCountMismatch, .error, .type,
      "Expected \x7b0\x7d positional arguments, got \x7b1\x7d"⟩,
    ⟨Code.unsupportedOperator, .error, .type,
      "Operator '\x7b0\x7d' not supported for types '\x7b1\x7d' and '\x7b2\x7d'"⟩,
    ⟨Code.notCallable, .error, .type, "Object of type '\x7b0\x7d' is not callable"⟩,
    ⟨Code.notSubscriptable, .error, .type, "Object of type '\x7b0\x7d' is not subscriptable"⟩,
    ⟨Code.assignmentTypeMismatch, .error, .type,
      "Type '\x7b0\x7d' is not assignable to declared type '\x7b1\x7d'"⟩,
    ⟨Code.unknownKeywordArgument, .error, .type, "No parameter named '\x7b0\x7d'"⟩,
    ⟨Code.returnTypeMismatch, .error, .type,
      "Type '\x7b0\x7d' is not assignable to return type '\x7b1\x7d'"⟩,
    ⟨Code.evaluationTooDeep, .warning, .cycleGuard, "Type evaluation exceeded maximum depth"⟩]

def Rule.find? (code : Nat) : Option Rule := rules.find? (·.code == code)

/-! ## Messages -/

/-- Replaces the occurrences of `pattern` from left to right, none of which overlaps another; the
first `skip` characters are dropped. -/
def replaceFrom (pattern replacement : List Char) : Nat → List Char → List Char
  | _, [] => []
  | skip + 1, _ :: cs => replaceFrom pattern replacement skip cs
  | 0, c :: cs =>
    if pattern.isPrefixOf (c :: cs) then
      replacement ++ replaceFrom pattern replacement (pattern.length - 1) cs
    else c :: replaceFrom pattern replacement 0 cs

/-- The place of the argument with the given index in a template. -/
def placeholder (index : Nat) : List Char := '\x7b' :: (Nat.repr index).toList ++ ['\x7d']

/-- Puts the arguments into the places of a template, one argument after the other. -/
def fillFrom : Nat → List String → List Char → List Char
  | _, [], text => text
  | index, arg :: args, text =>
    fillFrom (index + 1) args (replaceFrom (placeholder index) arg.toList 0 text)

/-- The message of a template and its arguments. -/
def formatMessage (template : String) (args : List String) : String :=
  String.ofList (fillFrom 0 args template.toList)

/-! ## Reports -/

/-- A reported problem in a file. -/
structure Diagnostic where
  severity : Severity
  kind : FaultKind
  code : Nat
  file : String
  span : Span
  message : String
deriving Repr, DecidableEq, Inhabited

namespace Diagnostic

/-- The report of a rule. A number without a rule still gives a report: a type error whose text is
the arguments. -/
def ofCode (file : String) (span : Span) (code : Nat) (args : List String) : Diagnostic :=
  match Rule.find? code with
  | some rule => ⟨rule.severity, rule.kind, code, file, span, formatMessage rule.template args⟩
  | none => ⟨.error, .type, code, file, span, " ".intercalate args⟩

def isError (d : Diagnostic) : Bool := d.severity == .error

/-- Two reports about the same place and rule count as one. -/
def key (d : Diagnostic) : Nat × Nat × Nat := (d.span.start, d.span.length, d.code)

end Diagnostic

/-- A problem found in a text whose file is not known yet. -/
structure Finding where
  code : Nat
  span : Span
  /-- What goes into the message, if anything. -/
  arg : Option String
deriving Repr, DecidableEq, Inhabited

def Finding.report (f : Finding) (file : String) : Diagnostic :=
  Diagnostic.ofCode file f.span f.code f.arg.toList

end LiveCheck
