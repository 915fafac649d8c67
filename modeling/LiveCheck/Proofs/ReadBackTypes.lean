import LiveCheck.Proofs.Hints.Reading
import LiveCheck.Proofs.Hints.Text
import LiveCheck.Proofs.ProperTrees
import LiveCheck.Proofs.Hints.Rules
import LiveCheck.Proofs.RepeatedQuestions
import LiveCheck.Proofs.Session.Invariants

/-!
# Printed types in sessions

Whatever was asked before, the text of a type is read as the type that it was printed from.
-/

/-!
## Annotations

A type expression of a module may stand anywhere in it. Its text is known by the tokens: those that
the scanner takes from the text stand in a row in the module, and the parser has come to the first of
them to read an expression. If the text is that of a type, then the node has the shape of what is
written for the type.
-/

namespace LiveCheck

open TypeTable

/-- The parser reads the node of a source as an expression in a statement, from a place where the
tokens of the text are next and what follows them does not go on with an expression. -/
structure ReadFrom (source text : String) (node : NodeId) : Prop where
  mem_tree : (parse source).tree.arena.Reachable (parse source).tree.root node
  read : ∃ fuel, ∃ s t : ParseState, ∃ ps lineEnd next rest,
    (scan text).tokens.toList.map Token.piece = ps ++ [⟨.newline, lineEnd⟩, ⟨.endOfFile, ""⟩] ∧
      s.tokens = (scan source).tokens ∧ s.ahead = ps ++ next :: rest ∧ next.kind.continues = 0 ∧
      s.remaining ≤ fuel ∧ (Parser.outermost fuel).expression.run s = (node, t) ∧
      t.arena.Extends (parse source).tree.arena

namespace Arena

variable {a b : Arena}

theorem extends_iff : a.Extends b ↔ (∀ node < a.nodes.size, b.data? node = a.data? node) ∧
    ∀ atom < a.names.names.size, b.names.names[atom]? = a.names.names[atom]? := by
  constructor
  · refine fun h => ⟨fun node hnode => ?_, fun atom hatom => ?_⟩
    · have hdata : a.data? node = some a.nodes[node].data := by
        rw [data?, Array.getElem?_eq_getElem hnode]
        rfl
      rw [hdata]
      exact h.data? node _ hdata
    · have htext := Array.getElem?_eq_getElem hatom
      rw [htext]
      exact h.names atom _ htext
  · rintro ⟨hdata, hnames⟩
    refine ⟨fun node data hd => ?_, fun atom text ht => ?_⟩
    · obtain ⟨n, hn, -⟩ := Option.map_eq_some_iff.mp hd
      rw [hdata node (Array.getElem?_eq_some_iff.mp hn).1, hd]
    · rw [hnames atom (Array.getElem?_eq_some_iff.mp ht).1, ht]

instance : Decidable (a.Extends b) := decidable_of_iff' _ extends_iff

private theorem Reachable.mem_of_closed {root n : NodeId} {ns : List NodeId}
    (h : a.Reachable root n)
    (hroot : root ∈ ns) (hclosed : ∀ m ∈ ns, ∀ c ∈ a.children m, c ∈ ns) : n ∈ ns := by
  induction h with
  | root => exact hroot
  | child _ hchild ih => exact hclosed _ ih _ hchild

end Arena

/-! ### Texts of types -/

namespace TypeTable

variable {t : TypeTable} {depth : Nat} {id : TypeId}

private theorem Writable.scan_format (h : t.Writable depth id) (hdepth : depth < Limits.formatting)
    (hbase : initial.Extends t) :
    ∃ lineEnd, (scan (t.format id)).tokens.toList.map Token.piece =
      (t.hint id).pieces ++ [⟨.newline, lineEnd⟩, ⟨.endOfFile, ""⟩] := by
  have hinlaid : Inlaid (t.hint id).pieces (t.format id).toList := h.inlaid hdepth hbase
  have hspells : Spells (t.hint id).pieces (t.format id) := by
    refine ⟨?_, fun c hc => ?_⟩
    · have hspaced := hinlaid.spaced .nil (fun _ h => nomatch h)
      rwa [List.append_nil, List.append_nil] at hspaced
    · obtain ⟨first, cs, hcs, hblank⟩ := hinlaid.begins
      rw [hcs] at hc
      obtain rfl := Option.some.inj hc
      exact hblank
  have hrow := (t.hint id).isRow
  have hne : (t.hint id).pieces ≠ [] := by
    intro hnil
    have hlength := (t.hint id).nesting_lt_length
    rw [hnil] at hlength
    exact absurd hlength (Nat.not_lt_zero _)
  exact (scan_pieces hrow.scanned hrow.level hne hspells).1

private theorem Writable.shown (h : t.Writable depth id) (hdepth : depth < Limits.formatting)
    (hbase : initial.Extends t) {source : String} {node : NodeId}
    (hread : ReadFrom source (t.format id) node) :
    (t.hint id).Shown (parse source).tree.arena node := by
  obtain ⟨fuel, s, r, ps, lineEnd, next, rest, htokens, -, hahead, hnext, hfuel, hrun, he⟩ :=
    hread.read
  obtain ⟨lineEnd', htokens'⟩ := h.scan_format hdepth hbase
  rw [htokens] at htokens'
  obtain ⟨rfl, -⟩ := List.append_inj' htokens' rfl
  have hlength := (t.hint id).nesting_lt_length
  have hnesting : (t.hint id).nesting < fuel := by
    rw [ParseState.remaining_eq, hahead, List.length_append] at hfuel
    omega
  have hlow : (t.hint id).nesting < Limits.parseDepth := by
    have hle : (t.hint id).nesting ≤ depth + 1 := h.nesting_le hdepth hbase
    have hlimits : Limits.formatting + 1 ≤ Limits.parseDepth := by decide
    omega
  have hleft : (t.hint id).Leftward := h.leftward hdepth hbase
  obtain ⟨i, r', hrun', -, hshown⟩ :=
    Parser.reads_hint hleft hnesting hlow hahead (by omega)
  obtain ⟨rfl, rfl⟩ := Prod.mk.inj (hrun.symm.trans hrun')
  exact hshown _ he

end TypeTable

/-! ### Names that mean what they say -/

/-- No scope of the module has a symbol with the name of a built-in class. -/
def Binding.SparesClasses (b : Binding) : Prop :=
  ∀ s ∈ b.scopes, ∀ entry ∈ s.symbols, builtinClassNamed? entry.1 = none

instance (b : Binding) : Decidable b.SparesClasses :=
  inferInstanceAs (Decidable (∀ s ∈ b.scopes, _))

/-- No name below the node declares anything. -/
def Binding.OnlyUses (b : Binding) (a : Arena) (node : NodeId) : Prop :=
  ∀ n, a.Reachable node n → b.declarationAt? n = none

namespace Binding

variable {b : Binding} {a : Arena} {node : NodeId} {name : String}

private theorem SparesClasses.local?_eq_none (h : b.SparesClasses)
    (hname : (builtinClassNamed? name).isSome = true) (scope : ScopeId) :
    b.local? scope name = none := by
  rw [local?, Option.bind_eq_none_iff]
  intro s hs
  rw [SymbolTable.find?, Option.map_eq_none_iff, Array.find?_eq_none]
  intro entry hentry heq
  have hnone := h s (Array.mem_of_getElem? hs) entry hentry
  rw [eq_of_beq heq] at hnone
  rw [hnone] at hname
  exact nomatch hname

private theorem SparesClasses.keepsClasses (h : b.SparesClasses) (huses : b.OnlyUses a node) :
    b.KeepsClasses a node := by
  intro n name hn _ hname
  refine ⟨huses n hn, ?_⟩
  rw [resolve?]
  split
  · exact h.local?_eq_none hname 0
  · rw [List.findSome?_eq_none_iff]
    intro scope _
    split
    · exact h.local?_eq_none hname scope
    · rfl

end Binding

/-! ### Nodes of a tree -/

private theorem descends_parse {source : String} {node : NodeId}
    (h : (parse source).tree.arena.Reachable (parse source).tree.root node) :
    (parse source).tree.arena.Descends node := by
  intro n hn c hc
  obtain ⟨ns, hforest, -⟩ := accounted_parse source
  exact ((hforest.children (hforest.reachable_iff.mp (h.trans hn))).1 c hc).1

end LiveCheck

/-!
## Type expressions in sessions

As long as nothing is pending, all that questions do to a session keeps right what is known about the
type expressions of a file. So whatever has been asked before, the evaluation of a type expression
that meets no full stack ends, and finds the type that the type expression means.
-/

namespace LiveCheck

open Session Evaluation Discipline TypeTable

variable {slack limit n : Nat} {file : FileId} {a : Arena} {b : Binding} {node : NodeId}
  {s t : Session} {st : EvalState} {h : Hint}

/-! ### Questions -/

private theorem told_evaluate (hst : (telling slack file a b limit [] []).Ok st) (key : EvalKey) :
    (telling slack file a b limit [] []).Outcome st TypeId.Known (evaluate key st) ∧
      Replies file a b key st (evaluate key st) := by
  have hrun : evaluate key st = evaluateBy compute limit key st := by
    simp only [evaluate, Bind.bind, StateT.bind]
    exact congrArg (evaluateBy compute · key st) hst.1.depth
  rw [hrun]
  exact told_evaluateBy (fits_nil limit) rfl key hst

private theorem admits_told : Admits slack (telling slack file a b limit [] []) evaluate :=
  admits_telling fun _ key _ hst _ => (told_evaluate hst key).1

namespace Session

private theorem invariant_based : Invariant fun s => TypeTable.initial.Extends s.types where
  start _ _ _ := .refl _
  edit _ s t h hs := by rwa [h.rest]
  write _ _ hs := hs
  clear _ hs := hs
  reparse s t file h hs := by rwa [h.rest]
  finish s t h hs := by
    cases h with
    | calm => exact hs
    | full rebuilt =>
      rw [types_invalidateAll]
      exact .refl _
    | dependents rebuilt affected => rwa [rest_invalidateDependents]
  evaluate _ s t _ h hs := hs.trans h.extends
  check _ _ hs := hs
  register _ _ hs := hs

/-- Nothing is pending, and what is known about type expressions in the file is right. -/
private structure Told (slack : Nat) (file : FileId) (a : Arena) (b : Binding) (s : Session) :
    Prop where
  coherent : s.Coherent slack
  settled : s.hasPendingChanges = false
  tells : s.Tells file a b

private theorem Told.performs (hs : s.Told slack file a b) (h : Performs slack s t)
    (ht : t.Tells file a b) : t.Told slack file a b where
  coherent := h.steps.coherent hs.coherent
  settled := by
    rw [hasPendingChanges, h.steps.rest]
    exact hs.settled
  tells := ht

private theorem Told.prepares (hs : s.Told slack file a b) (h : Prepares slack s t) :
    t.Told slack file a b := hs.performs h.performs (hs.tells.prepares h)

private theorem Told.ok (hs : s.Told slack file a b) :
    (telling slack file a b s.options.maxEvaluationDepth [] []).Ok { session := s } :=
  ⟨inOrder_start hs.coherent, hs.tells⟩

private theorem Told.outcome (hs : s.Told slack file a b) (inquiry : Inquiry) :
    (inquiry.outcome s).session.Told slack file a b := by
  have hout := inquiry.sound admits_told { session := s } hs.ok (Nat.zero_le _)
  exact hs.performs hout.step.performs hout.ok.2

private theorem knows_of_markChecked {checked : FileId} {key : EvalKey} {type : TypeId}
    (hb : s.IsBound checked) (h : (Query.markChecked checked s).Knows key type) :
    s.Knows key type := by
  obtain ⟨v, n, ⟨hv, hbound, hstamp⟩, hnode, htype⟩ := h
  obtain ⟨u, hu, ⟨hfile, rfl⟩ | ⟨-, rfl⟩⟩ := unit?_modifyUnit_eq_some (s := s) hv
  · obtain ⟨w, hw, hwbound⟩ := hb
    obtain rfl := Option.some.inj ((hfile ▸ hu).symm.trans hw)
    exact ⟨u, n, ⟨hu, hwbound, hstamp⟩, hnode.congr rfl, htype⟩
  · exact ⟨v, n, ⟨hu, hbound, hstamp⟩, hnode, htype⟩

private theorem Told.markChecked (hs : s.Told slack file a b) {checked : FileId}
    (hb : s.IsBound checked) :
    (Query.markChecked checked s).Told slack file a b where
  coherent := coherent_markChecked hs.coherent hb
  settled := hs.settled
  tells := by
    obtain ⟨u, tree, hu, hbound, htree, ha, hbinding⟩ := hs.tells.hosts
    obtain ⟨v, hv, hstays, -⟩ := staysBound_markChecked checked hu hbound
    refine ⟨hs.tells.idle, ⟨v, tree, hv, hstays.isBound, hstays.tree.trans htree, ha,
      hstays.binding.trans hbinding⟩, hs.tells.base, fun h node type hstands hknows => ?_⟩
    exact hs.tells.known h node type hstands (knows_of_markChecked hb hknows)

private theorem Told.passes (hs : s.Told slack file a b) (h : s.Passes t) :
    t.Told slack file a b := by
  induction h with
  | flush => rwa [flush_of_not_pending hs.settled]
  | again _ ih => rwa [flush_of_not_pending ih.settled]
  | bind _ other ih => exact ih.prepares (prepares_ensureBound ih.coherent.tidy other)
  | resolve _ other dotted level ih =>
    exact ih.prepares (prepares_resolveImport _ other dotted level)
  | evaluate _ inquiry ih => exact ih.outcome inquiry
  | check _ hb ih => exact ih.markChecked hb

end Session

/-! ### Annotations -/

private theorem Hint.ne_text_of_shown (hs : h.Shown a node) (text : String) :
    a.data? node ≠ some (.constant .string (some text)) := by
  intro htext
  cases h with
  | cls c =>
    by_cases hnone : c = .none
    · subst hnone
      exact nomatch htext.symm.trans hs
    · by_cases hellipsis : c = .ellipsis
      · subst hellipsis
        exact nomatch htext.symm.trans hs
      · obtain ⟨atom, hdata, -⟩ := (BuiltinClass.shown_iff hnone hellipsis).mp hs
        exact nomatch htext.symm.trans hdata
  | subscript c args =>
    obtain ⟨i, j, hdata, -⟩ := hs
    exact nomatch htext.symm.trans hdata
  | or left right =>
    obtain ⟨i, j, hdata, -⟩ := hs
    exact nomatch htext.symm.trans hdata

private theorem hintType_eq (hst : (telling slack file a b limit [] []).Ok st) (hs : h.Shown a node)
    (ask : Ask) : hintType ask file node st =
      (formType (ask (.node file node) st).2.session.types (ask (.node file node) st).1,
        (ask (.node file node) st).2) := by
  obtain ⟨bound, hbound, rfl, -⟩ := bound?_of_telling hst
  have hnot := Hint.ne_text_of_shown hs
  simp only [hintType, Bind.bind, StateT.bind, hbound]
  rcases hdata : bound.arena.data? node with _ | data
  · rfl
  · cases data with
    | constant kind text =>
      cases kind with
      | string =>
        cases text with
        | none => rfl
        | some text => exact absurd hdata (hnot text)
      | _ => rfl
    | _ => rfl

namespace Session

private theorem Told.run_hintType (hs : s.Told slack file a b) (hstands : h.Stands a b node)
    (hregular : h.Regular s.types)
    (hw : (hintType evaluate file node { session := s }).2.WithinLimit) :
    ∃ id, (run (hintType evaluate file node) s).1 = some id ∧
      h.Means (run (hintType evaluate file node) s).2.types id := by
  obtain ⟨hout, hreplies⟩ := told_evaluate hs.ok (.node file node)
  have heq := hintType_eq hs.ok hstands.shown evaluate
  rw [heq] at hw
  have hmade := hregular.extends hout.step.performs.steps.extends
  rcases hreplies h node rfl hstands with ⟨htells, hends⟩ | hmarks | ⟨m, -, place, hplace, -⟩
  · refine ⟨_, mem_run.mpr ⟨?_, congrArg Prod.fst heq⟩, ?_⟩
    · rw [heq]
      exact hends _ (.refl _) hmade
    · have hsession : (run (hintType evaluate file node) s).2 =
          (evaluate (.node file node) { session := s }).2.session :=
        congrArg (·.2.session) heq
      rw [hsession]
      exact htells.means hout.ok.2.base (.refl _) hmade
  · -- the evaluation has begun with nothing on the stack, so only a full stack can have been met
    obtain ⟨news, hnews, m, hm, hmark⟩ := hmarks
    exact absurd hmark (mark?_ne_zero hout.ok.1.lawful hw m (hnews ▸ List.mem_append_left _ hm))
  · exact nomatch hplace

end Session
end LiveCheck

/-!
## Printed types read back

The text of a type that is made of built-in classes is a type expression. Where it stands as an
annotation in a module that leaves the names of built-in classes alone, it is evaluated to the very
type that it was printed from, wherever it stands and whatever was asked before.
-/

namespace LiveCheck.Session

open Evaluation TypeTable

/-- A file is bound to the tree of a source with some names, nothing is pending, and nothing is known
about the nodes of the file yet. -/
structure Begins (s : Session) (file : FileId) (source : String) (b : Binding) : Prop where
  hosts : s.Hosts file (parse source).tree.arena b
  settled : s.hasPendingChanges = false
  unknown : ∀ node type, ¬ s.Knows (.node file node) type

variable {r s t : Session} {file : FileId} {source : String} {b : Binding}

private theorem Begins.told (hr : r.Reached) (h : r.Passes s) (hs : s.Begins file source b) :
    ∃ slack, s.Told slack file (parse source).tree.arena b := by
  have hbase := invariant_based.reached hr
  obtain ⟨options, files, hostPaths, ops, rfl⟩ := hr
  have hmaintained := maintained_after options files hostPaths ops
  have hfresh : s.Fresh := h.respected respected_fresh hmaintained.flush
  have hbased : s.Orderly ∧ TypeTable.initial.Extends s.types :=
    h.respected invariant_based.respected
      ⟨hmaintained.orderly.flush, invariant_based.flush hmaintained.orderly hbase⟩
  obtain ⟨slack, hcoherent⟩ := hbased.1.1.exists_coherent
  exact ⟨slack, hcoherent, hs.settled, hfresh.1.idle, hs.hosts, hbased.2,
    fun h node type _ hknows => absurd hknows (hs.unknown node type)⟩

/-- **Printed types read back.** In every run: if a module gives no name of a built-in class another
meaning, then from the time on when it has been bound, and whatever questions have been answered
since, an annotation in it with the text of a type that is made of built-in classes stands for exactly
that type. The evaluation must not meet a full stack, and the type must have fewer levels than are
printed. -/
theorem annotation_reads_back (hr : r.Reached) (hs : r.Passes s) (hbegins : s.Begins file source b)
    (hspares : b.SparesClasses) (ht : s.Passes t) {depth : Nat} {id : TypeId}
    (hid : t.types.Writable depth id) (hdepth : depth < Limits.formatting) {node : NodeId}
    (hread : ReadFrom source (t.types.format id) node)
    (huses : b.OnlyUses (parse source).tree.arena node)
    (hw : (hintType evaluate file node { session := t }).2.WithinLimit) :
    (run (hintType evaluate file node) t).1 = some id := by
  obtain ⟨slack, htold⟩ := hbegins.told hr hs
  have htold' : t.Told slack file (parse source).tree.arena b := htold.passes ht
  have hbase := htold'.tells.base
  have hstands : (t.types.hint id).Stands (parse source).tree.arena b node :=
    ⟨hid.shown hdepth hbase hread, descends_parse hread.mem_tree, hspares.keepsClasses huses⟩
  obtain ⟨other, hrun, hmeans⟩ := htold'.run_hintType hstands (hid.regular hdepth hbase) hw
  have hlater : t.types.Extends (run (hintType evaluate file node) t).2.types :=
    (run_of_sound htold'.coherent fun _ =>
      sound_hintType admits_evaluate file node).1.steps.extends
  rw [hrun, hid.eq_of_means hdepth hbase hlater hmeans]

/-- A module with the text of a type as an annotation. -/
def annotatedSource : String := "z: dict[str, list[int]] | None\n"

private def behindColon : ParseState :=
  ((Parser.inStatement Parser.starExpressions *> Parser.eat Symbol.colon).run
    (.start annotatedSource)).2

private theorem readFrom_annotatedSource :
    ReadFrom annotatedSource "dict[str, list[int]] | None" 9 where
  mem_tree := by
    have h : (parse annotatedSource).tree.root = 11 ∧
        10 ∈ (parse annotatedSource).tree.arena.children 11 ∧
        9 ∈ (parse annotatedSource).tree.arena.children 10 := by decide +kernel
    rw [h.1]
    exact .child (.child .root h.2.1) h.2.2
  read := by
    let done := (Parser.outermost behindColon.remaining).expression.run behindColon
    have hrun : (scan "dict[str, list[int]] | None").tokens.toList.map Token.piece =
          behindColon.ahead.take 11 ++ [⟨.newline, ""⟩, ⟨.endOfFile, ""⟩] ∧
        behindColon.tokens = (scan annotatedSource).tokens ∧
        behindColon.ahead =
          behindColon.ahead.take 11 ++ [⟨.newline, "\n"⟩, ⟨.endOfFile, ""⟩] ∧
        done.1 = 9 ∧ done.2.arena.Extends (parse annotatedSource).tree.arena := by
      decide +kernel
    obtain ⟨htokens, hsource, hahead, hnode, hextends⟩ := hrun
    exact ⟨behindColon.remaining, behindColon, done.2, behindColon.ahead.take 11, "",
      ⟨.newline, "\n"⟩, [⟨.endOfFile, ""⟩], htokens, hsource, hahead, rfl, Nat.le_refl _,
      Prod.ext hnode rfl, hextends⟩

/-- The type of a variable is printed, and the text is the annotation in another module. -/
theorem annotation_reads_back_annotatedSource :
    let files := FileStore.ofList
      [("a.py", "x = \x7b\"k\": [1]\x7d\ny = x if x else None\n"), ("b.py", annotatedSource)]
    let r := (Session.new {} files []).after [.setRoots ["a.py", "b.py"]]
    let s := ((r.flush.ensureBound 0).2.ensureBound 1).2
    let t := ((Inquiry.ofSymbol 0 1).outcome s).session
    (run (symbolType evaluate 0 1) s).1 = some 14 ∧ t.types.Writable 3 14 ∧
      t.types.format 14 = "dict[str, list[int]] | None" ∧
      ReadFrom annotatedSource (t.types.format 14) 9 ∧
      (hintType evaluate 1 9 { session := t }).2.WithinLimit ∧
      (run (hintType evaluate 1 9) t).1 = some 14 := by
  intro files r s t
  let b := ((s.unit? 1).bind (·.binding)).getD default
  have hrun : (run (symbolType evaluate 0 1) s).1 = some 14 ∧
      t.types.format 14 = "dict[str, list[int]] | None" ∧
      (hintType evaluate 1 9 { session := t }).2.WithinLimit ∧
      (t.types.find? (.inst (.builtin .str) []) = some 8 ∧
        t.types.find? (.inst (.builtin .int) []) = some 5 ∧
        t.types.find? (.inst (.builtin .list) [5]) = some 12 ∧
        t.types.find? (.inst (.builtin .dict) [8, 12]) = some 13 ∧
        t.types.find? (.inst (.builtin .none) []) = some 3 ∧
        t.types.find? (.union [13, 3]) = some 14 ∧
        ∀ m ∈ [13, 3], t.types.members m = [m]) ∧
      (s.hasPendingChanges = false ∧ (s.unit? 1).map (·.state.isBound) = some true ∧
        (s.unit? 1).map (·.analysis.isEmpty) = some true ∧
        ((s.unit? 1).bind fun u => u.tree.map (·.arena)) =
          some (parse annotatedSource).tree.arena ∧
        ((s.unit? 1).bind (·.binding)).isSome = true) ∧
      b.SparesClasses ∧ ∀ n ∈ List.range' 1 9, b.declarationAt? n = none ∧
        ∀ c ∈ (parse annotatedSource).tree.arena.children n, c ∈ List.range' 1 9 := by
    decide +kernel
  obtain ⟨hsymbol, hformat, hwithin, hentries, hunit, hspares, hnames⟩ := hrun
  have hread : ReadFrom annotatedSource (t.types.format 14) 9 := hformat ▸ readFrom_annotatedSource
  -- the parts of the type come one by one, each from its entry
  obtain ⟨hstr, hint, hlist, hdict, hnone, hunion, hsingle⟩ := hentries
  have hlist' : t.types.Writable 1 12 :=
    .generic (by decide) (by decide) (by decide)
      (List.forall_mem_singleton.mpr fun _ => .cls (by decide) hint) hlist
  have hdict' : t.types.Writable 2 13 :=
    .generic (by decide) (by decide) (by decide)
      (List.forall_mem_cons.mpr ⟨fun _ => .cls (by decide) hstr,
        List.forall_mem_singleton.mpr fun _ => hlist'⟩) hdict
  have hwritable : t.types.Writable 3 14 :=
    .union (by decide) (by decide) (by decide) hsingle
      (List.forall_mem_cons.mpr
        ⟨hdict', List.forall_mem_singleton.mpr (.cls (by decide) hnone)⟩) hunion
  -- the second module is bound, and nothing has been evaluated in it
  obtain ⟨hsettled, hbound, hempty, harena, hbinding⟩ := hunit
  have hbegins : s.Begins 1 annotatedSource b := by
    obtain ⟨u, hu, hb⟩ := Option.map_eq_some_iff.mp hbound
    rw [hu, Option.map_some] at hempty
    rw [hu, Option.bind_some] at harena hbinding
    obtain ⟨tree, htree, ha⟩ := Option.map_eq_some_iff.mp harena
    obtain ⟨own, hown⟩ := Option.isSome_iff_exists.mp hbinding
    have hb' : b = own := by simp [b, hu, hown]
    refine ⟨⟨u, tree, hu, hb, htree, ha, hb' ▸ hown⟩, hsettled, ?_⟩
    rintro node type ⟨v, n, ⟨hv, -, -⟩, -, htype⟩
    obtain rfl := Option.some.inj (hv.symm.trans hu)
    have hfilled := SourceUnit.isEmpty_eq_false_of_typeAt? htype
    rw [hfilled] at hempty
    exact nomatch hempty
  have huses : b.OnlyUses (parse annotatedSource).tree.arena 9 := fun n hn =>
    (hnames n (hn.mem_of_closed (by decide) fun m hm => (hnames m hm).2)).1
  have hr : r.Reached := ⟨_, _, _, _, rfl⟩
  have hs : r.Passes s := .bind (.bind .flush 0) 1
  have hsame : s.flush = s := flush_of_not_pending hsettled
  have ht : s.Passes t := by
    have hevaluate : s.Passes ((Inquiry.ofSymbol 0 1).outcome s.flush).session := .evaluate .flush _
    rwa [hsame] at hevaluate
  exact ⟨hsymbol, hwritable, hformat, hread, hwithin,
    annotation_reads_back hr hs hbegins hspares ht hwritable (by decide) hread huses hwithin⟩

end LiveCheck.Session
