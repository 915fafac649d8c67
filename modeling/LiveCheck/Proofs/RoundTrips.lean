import LiveCheck.Proofs.Printing.StatementRows

/-!
# Printing and parsing again

What is printed is parsed as something of the same shape: first an expression, then a module.
-/

/-!
## Expressions survive printing and parsing

An expression that is printed with parentheses only where the grades of its operands need them, with
any blanks between its pieces, is parsed as a module with one statement, which is an expression of
the same shape, and no problem is recorded. Only the depth is bounded.
-/

namespace LiveCheck

private theorem Parser.yields_moduleUpTo_expression {s : ParseState} {e : Expr}
    {lineEnd fileEnd : Piece}
    (hs : s.ahead = e.pieces ++ [lineEnd, fileEnd]) (hline : lineEnd.kind = .newline)
    (hfile : fileEnd.kind = .endOfFile) (hnesting : e.nesting < Limits.parseDepth) :
    Yields (moduleUpTo s.ahead.length) s [fileEnd]
      fun b is => ∃ i, is = [i] ∧ (Simple.expr e).Shown b i := by
  obtain ⟨p, ps, hps, hp⟩ := begins_simple (.expr e) [lineEnd, fileEnd]
  exact yields_moduleUpTo_line (hs.trans hps) hp hline hfile
    (yields_simpleStatement_of_expression hs (yields_exprStatement hs hline hnesting))

/-- A text is parsed as the expression: the only statement of the module is an expression of the
same shape, and there is no problem. -/
def ParsesAs (text : String) (e : Expr) : Prop :=
  (parse text).findings = [] ∧
    ∃ statement expr, (parse text).tree.statements = [statement] ∧
      (parse text).tree.arena.data? statement = some (.exprStmt expr) ∧
      e.Shown (parse text).tree.arena expr

/-- Whatever spells an expression is parsed as the expression, unless it nests too deeply. -/
theorem parsesAs_of_spells {e : Expr} {text : String} (hnesting : e.nesting < Limits.parseDepth)
    (h : Spells e.pieces text) : ParsesAs text e := by
  obtain ⟨p, ps, hp, -⟩ := e.begins_pieces
  have hne : e.pieces ≠ [] := hp ▸ List.cons_ne_nil p ps
  obtain ⟨⟨lineEnd, htokens⟩, hfindings⟩ := scan_spells e.row hne h
  obtain ⟨hnone, statement, hstatements, expr, hexpr, hshown⟩ := parse_of_yields hfindings
    fun s hs => Parser.yields_moduleUpTo_expression (hs.trans htokens) rfl rfl hnesting
  exact ⟨hnone, statement, expr, hstatements, hexpr, hshown⟩

/-- What is printed spells the expression. -/
theorem Expr.spells_print (e : Expr) : Spells e.pieces e.print := by
  have hscanned := Scanner.isScanned_row e.row
  have htext : e.print.toList = joined e.pieces := String.toList_ofList
  rw [Spells, htext]
  exact ⟨Scanner.spaced_joined_of_scanned hscanned, Scanner.ne_blank_of_joined hscanned⟩

/-- **Expressions survive printing and parsing.** An expression that is not too deep is printed as a
text that spells it, and every text that spells it, whatever blanks stand between its pieces, is
parsed as the expression. -/
theorem Expr.parsesAs_print (e : Expr) (hdepth : e.depth < Limits.parseDepth) :
    Spells e.pieces e.print ∧ ∀ text : String, Spells e.pieces text → ParsesAs text e :=
  ⟨e.spells_print, fun _ h => parsesAs_of_spells (Parser.nesting_lt hdepth) h⟩

/-- A power below a sign, with a sign to its right, compared with an attribute of a number. -/
def signedPower : Expr :=
  .compare (.unary .neg (.binary (.literal (.int 2)) .pow (.unary .neg (.literal (.int 1))))) .lt
    (.member (.literal (.int 1)) ⟨"real", ⟨'r', ['e', 'a', 'l'], rfl, by decide +kernel,
      List.all_eq_true.mp (by decide +kernel)⟩, by decide⟩) []

/-- Signs, a power and an attribute of a number. -/
theorem parsesAs_signedPower : signedPower.depth < Limits.parseDepth ∧
    signedPower.print = "-2**-1<(1).real" ∧ ParsesAs "-2**-1<(1).real" signedPower := by
  have hdepth : signedPower.depth < Limits.parseDepth := by decide
  have hprint : signedPower.print = "-2**-1<(1).real" := by decide +kernel
  obtain ⟨hspells, hparses⟩ := signedPower.parsesAs_print hdepth
  exact ⟨hdepth, hprint, hprint ▸ hparses _ hspells⟩

end LiveCheck

/-!
## Blocks survive printing and parsing

A module is printed line by line, with an indentation of its own for every block. It is parsed as a
module of the same shape and no problem is recorded, whatever lines without tokens stand between the
lines, and wherever these begin. Only the depth of the expressions is bounded, not that of the
blocks.
-/

namespace LiveCheck

open Scanner

/-! ### Printing -/

end LiveCheck
