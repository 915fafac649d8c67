import LiveCheck.Proofs.Grammar.Descent
import LiveCheck.Proofs.Parsing.Account

/-!
# Progress of a parse

The rules of the grammar set no bound on repetition or nesting. Followed on the tokens of a text,
however malformed it is, they come to an end all the same, and they come to it at the end of the
text: every call of a rule is at a later token or goes to a rule of a lower level, so the next round
of a loop begins behind the token at which the last one began.
-/

namespace LiveCheck

open Program

namespace Production

variable {α : Type} {r : Production α} {s : ParseState}

/-- The rule, followed from the state, comes to an end. -/
structure Descends (r : Production α) (s : ParseState) : Prop where
  /-- There is one run of the rule without fuel, and it is what the parser does. -/
  runs : ∀ a t, Runs (fun _ => Production.body) r.body s a t ↔ (parse _ r).run s = (a, t)
  /-- The rule gives no token back and does not pass the end of the text. -/
  further : s.Further ((parse _ r).run s).2
  /-- Nor is a rule called behind the end of the text or before the tokens that were taken. -/
  calls : ∀ c ∈ r.body.calls parse s, s.Further c.state
  /-- With each call the number of tokens left goes down or, for the same number, the level. -/
  lower : ∀ c ∈ r.body.calls parse s, c.Lower ⟨r, s⟩
  /-- A call that does not go down in the grammar, as for the next round of a loop, begins behind a
  token that was taken. -/
  rounds : ∀ c ∈ r.body.calls parse s, r.level ≤ c.rule.level → s.cursor < c.state.cursor

private theorem Settles.descends (h : r.Settles s) : r.Descends s where
  runs a t := by
    refine ⟨fun hruns => ?_, fun hparse => ?_⟩
    · obtain ⟨ha, ht⟩ := hruns.unique h.runs
      exact Prod.ext ha ht
    · have hruns := h.runs
      rwa [hparse] at hruns
  further := h.answers.further
  calls c hc := (h.calls c hc).further
  lower c hc := (h.calls c hc).lower
  rounds c hc hlevel := (h.calls c hc).taken.resolve_right fun habove =>
    Nat.not_lt.mpr hlevel habove.level

end Production

/-- The tokens of a text are parsed up to the end of the text. There and in whatever state the parse
gets into, the rules of the grammar come to an end without any bound. -/
theorem parse_reaches_end (text : String) :
    (∃ body t, Runs (fun _ => Production.body) .module (.start text) body t ∧
      (Parser.file text.utf8ByteSize).run (.start text) =
        ((t.arena.add (.root body) ⟨0, text.utf8ByteSize⟩).1,
          { t with arena := (t.arena.add (.root body) ⟨0, text.utf8ByteSize⟩).2 }) ∧
      t.tokens = (scan text).tokens ∧ t.token.kind = .endOfFile ∧ t.cursor + 1 = t.tokens.size) ∧
    ∀ {α : Type} (r : Production α) (s : ParseState), s.tokens = (scan text).tokens →
      s.cursor < s.tokens.size → r.Descends s := by
  have ht := ordered_scan text
  have hrules {α : Type} (r : Production α) (s : ParseState)
      (htokens : s.tokens = (scan text).tokens) (hcursor : s.cursor < s.tokens.size) :
      r.Descends s :=
    (Production.settles r ⟨htokens ▸ Lockstep.ended_of_ordered ht, hcursor⟩).descends
  refine ⟨?_, hrules⟩
  have hstart := accounted_start text
  have hmodule := hrules .module (.start text) rfl hstart.cursor_lt
  have hend := Parser.kind_moduleUpTo (Lockstep.account_crossesLines ht)
    (show (Lockstep.account _ ht).Rel (.start text) (.start text) [] from ⟨rfl, hstart⟩)
    (Nat.le_add_right _ _ : _ ≤ (ParseState.start text).remaining + _)
  generalize hresult : (Parser.moduleUpTo (ParseState.start text).remaining).run (.start text) =
    result at hend
  obtain ⟨body, t⟩ := result
  have hparse : (Production.parse _ .module).run (.start text) = (body, t) := hresult
  have hfurther : (ParseState.start text).Further t := by
    have hfurther := hmodule.further
    rwa [hparse] at hfurther
  have htokens : t.tokens = (scan text).tokens := hfurther.tokens
  refine ⟨body, t, (hmodule.runs _ _).mpr hparse, run_file hresult, htokens, hend, ?_⟩
  exact cursor_of_endOfFile (htokens ▸ ht) hfurther.inside hend

/-- A function that is broken off in its parameters and in its body. Three problems are found on the
way to the end of the text, and the rule for its statement comes to an end as well. -/
theorem parse_reaches_end_of_fragment :
    let text := "def f(:\n    return ]\n"
    ((Parser.file text.utf8ByteSize).run (.start text)).2.findings.size = 3 ∧
      (∃ body t, Runs (fun _ => Production.body) .module (.start text) body t ∧
        t.token.kind = .endOfFile ∧ t.cursor + 1 = t.tokens.size) ∧
      0 < (scan text).tokens.size ∧ Production.statement.Descends (.start text) := by
  intro text
  obtain ⟨⟨body, t, hruns, -, -, hend, hcursor⟩, hrules⟩ := parse_reaches_end text
  have hstart : 0 < (scan text).tokens.size := (accounted_start text).cursor_lt
  exact ⟨by decide +kernel, ⟨body, t, hruns, hend, hcursor⟩, hstart,
    hrules .statement (.start text) rfl hstart⟩

end LiveCheck
