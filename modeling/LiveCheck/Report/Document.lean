import LiveCheck.Document.Basic
import LiveCheck.Project.Basic

/-!
# Reports for programs

Options and the findings of a check as documents.
-/

namespace LiveCheck

def Options.document (o : Options) : Document :=
  .object
    [("pythonVersion", .text o.version.text),
      ("pythonPlatform", .text o.platform.label),
      ("searchPaths", .texts o.searchPaths),
      ("executionRoots", .texts o.roots),
      ("invalidation", .text o.invalidation.label),
      ("reportUnresolvedImports", .flag o.reportUnresolvedImports),
      ("maxEvaluationDepth", .number o.maxEvaluationDepth)]

def Diagnostic.document (d : Diagnostic) : Document :=
  .object
    [("category", .text d.severity.label),
      ("kind", .text d.kind.label),
      ("code", .number d.code),
      ("file", .text d.file),
      ("span", .object [("start", .number d.span.start), ("end", .number d.span.stop)]),
      ("messageText", .text d.message)]

def FileReport.document (r : FileReport) : Document :=
  .object
    [("path", .text r.path), ("diagnostics", .list (r.diagnostics.map Diagnostic.document))]

/-- What a check found as a document. Files without findings are not listed. -/
def CheckResult.document (r : CheckResult) : Document :=
  let listed := r.reports.filter (!·.diagnostics.isEmpty)
  .object
    [("files", .list (listed.map FileReport.document)),
      ("summary", .object
        [("files", .number r.reports.length),
          ("errors", .number r.errorCount),
          ("warnings", .number r.warningCount)])]

end LiveCheck
