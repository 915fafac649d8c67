import LiveCheck.Proofs.CurrentTypes

/-!
# Only complete results are kept

Whatever a question has evaluated, at every moment the stack is within its limit and has no key
twice, and a result is kept only if its computation saw nothing unfinished below itself and never
met a full stack. In the end the stack is empty and no provisional answer is left. As long as the
flushes of a run are steady, the type that is kept for a declaration does not stand for the
declaration itself; a result that comes back from a table of types that is gone may break this.
-/

namespace LiveCheck

open Session Evaluation Discipline

/-! ## Evaluations that questions run -/

/-- What a question has evaluated. -/
inductive Inquiry
  /-- The type at a node. -/
  | ofNode (file : FileId) (node : NodeId)
  /-- The type of a symbol of a module. -/
  | ofSymbol (file : FileId) (symbol : SymbolId)
  /-- The declarations of an attribute of an expression. -/
  | ofMember (file : FileId) (value : NodeId) (name : String)
  /-- All of a file. -/
  | ofFile (file : FileId)

namespace Inquiry

/-- The evaluation that is run. -/
def evaluation : Inquiry → EvalM Unit
  | .ofNode file node => discard (typeOfNode? evaluate file node)
  | .ofSymbol file symbol => discard (symbolType evaluate file symbol)
  | .ofMember file value name => do
    let object ← expressionType evaluate file value
    discard (memberDeclarations evaluate object name)
  | .ofFile file => checkFile file

/-- The evaluation in the end, if it begins in a session. -/
def outcome (inquiry : Inquiry) (s : Session) : EvalState := (inquiry.evaluation { session := s }).2

/-- What a question has evaluated keeps to every discipline that the engine keeps to. -/
theorem sound {slack : Nat} {D : Discipline EvalState} (h : Admits slack D evaluate)
    (inquiry : Inquiry) : D.Sound 0 inquiry.evaluation anything := by
  cases inquiry with
  | ofNode file node => exact (sound_typeOfNode? h file node).discard
  | ofSymbol file symbol => exact (sound_symbolType h file symbol).discard
  | ofMember file value name =>
    exact (sound_expressionType h file value).bind fun object _ _ _ =>
      (sound_memberDeclarations h object name).discard
  | ofFile file => exact sound_checkFile h file

private theorem outcome_inOrder {slack : Nat} {s : Session} (hs : s.Coherent slack)
    (inquiry : Inquiry) :
    (inquiry.outcome s).InOrder slack s.options.maxEvaluationDepth [] [] ∧
      EvalState.Proceeds slack { session := s } (inquiry.outcome s) :=
  have h := outcome_run hs fun limit => inquiry.sound (@admits_evaluate _ limit)
  ⟨h.ok, h.step⟩

end Inquiry

namespace Session

/-- The sessions in which evaluations begin while a question is answered: behind flushes and
bindings, and behind other evaluations and checks. -/
inductive Passes (s : Session) : Session → Prop
  | flush : s.Passes s.flush
  | again {t : Session} (h : s.Passes t) : s.Passes t.flush
  | bind {t : Session} (h : s.Passes t) (file : FileId) : s.Passes (t.ensureBound file).2
  | resolve {t : Session} (h : s.Passes t) (file : FileId) (dotted : String) (level : Nat) :
    s.Passes (t.resolveImport file dotted level).2
  | evaluate {t : Session} (h : s.Passes t) (inquiry : Inquiry) :
    s.Passes (inquiry.outcome t).session
  | check {t : Session} (h : s.Passes t) {file : FileId} (hb : t.IsBound file) :
    s.Passes (Query.markChecked file t)

variable {P : Session → Prop} {s t : Session}

/-- What all questions respect holds in all sessions that they pass. -/
theorem Passes.respected (h : s.Passes t) (hP : Query.Respected P) (hs : P s.flush) : P t := by
  induction h with
  | flush => exact hs
  | again _ ih => exact hP.flush _ ih
  | bind _ file ih =>
    exact hP.performs ih fun _ ht => (prepares_ensureBound ht file).performs
  | resolve _ file dotted level ih =>
    exact hP.performs ih fun _ _ => (prepares_resolveImport _ file dotted level).performs
  | evaluate _ inquiry ih =>
    obtain ⟨slack, hc, hkeep⟩ := hP.evaluate _ ih
    exact hkeep _ (inquiry.outcome_inOrder hc).2.performs
  | check _ hb ih => exact hP.check _ _ ih hb

end Session

/-! ## Every run -/

/-- In every run, whatever a question has evaluated: at every moment the stack was within its limit,
no key was on it twice, every key on it was found at its place, and a result was kept only for a
computation that was complete; what became known was kept; and in the end nothing is on the stack
and no provisional answer is left. If all flushes were steady, then no type that was kept for a
declaration stands for the declaration. -/
theorem results_complete (options : Options) (files : FileStore) (hostPaths : List String)
    (ops : List Operation) {s : Session}
    (hs : ((Session.new options files hostPaths).after ops).Passes s) (inquiry : Inquiry) :
    let start := Session.new options files hostPaths
    let st := inquiry.outcome s
    (∀ later m earlier, st.journal = later ++ m :: earlier →
      m.stack.length ≤ s.options.maxEvaluationDepth ∧ (keysOf m.stack).Nodup ∧
        (∀ key place, position? m.stack key = some place ↔
          0 < place ∧ (keysOf m.stack).reverse[place - 1]? = some key) ∧
        ∀ key type, m.event = .kept key type → Completed key m.stack earlier) ∧
      EvalState.Records { session := s } st ∧
      (st.stack = [] ∧ st.provisional = []) ∧
      ((Era.start start).Steady ops → (start.after ops).Steady ((Era.start start).after ops).since →
        ∀ m ∈ st.journal, ∀ decl type, m.event = .kept (.decl decl) type →
          Resolved st.session.types decl type) := by
  intro start st
  have horderly : (start.after ops).Orderly := orderly_after options files hostPaths ops
  have hs' : s.Orderly := hs.respected respected_orderly horderly.flush
  obtain ⟨slack, hcoherent⟩ := hs'.1.exists_coherent
  obtain ⟨hst, hproceeds⟩ := inquiry.outcome_inOrder hcoherent
  refine ⟨fun later m earlier he => ?_, hproceeds.records, ⟨?_, hst.provided⟩, ?_⟩
  · have hm := hst.lawful.moment he
    exact ⟨hm.height, hm.nodup, fun _ _ => position?_eq_some_iff hm.nodup, hm.complete⟩
  · exact List.map_eq_nil_iff.mp hst.stacked
  · intro hsteady hnext m hm decl type he
    obtain ⟨o, hacc⟩ := exists_accounted_after options files hostPaths ops hsteady
    obtain ⟨o', -, hanswering⟩ := hs.respected
      (respected_answers ((start.after ops).flush, o)) ⟨o, .refl, hacc.answering hnext⟩
    obtain ⟨hst, -⟩ := inquiry.outcome_inOrder hanswering.accounted.coherent
    exact (hst.resolved rfl m hm decl type he).2

/-- Two variables that are made from each other: the one that is asked for first is kept, and the
other one is not, because it was found while the first one was unfinished. -/
theorem results_complete_of_circle :
    let files := FileStore.ofList [("a.py", "x = [y]\ny = x\n")]
    let start := Session.new {} files []
    let ops : List Operation := [.setRoots ["a.py"]]
    let s := ((start.after ops).flush.ensureBound 0).2
    let st := (Inquiry.ofSymbol 0 0).outcome s
    (Era.start start).Steady ops ∧ (start.after ops).Steady ((Era.start start).after ops).since ∧
      (⟨.reentered (.decl ⟨0, 0⟩) 1, [⟨.node 0 5, 1⟩, ⟨.decl ⟨0, 1⟩, 4⟩, ⟨.node 0 1, 3⟩,
        ⟨.node 0 2, 2⟩, ⟨.decl ⟨0, 0⟩, 1⟩]⟩ ∈ st.journal) ∧
      (st.journal.map (·.event)).filter (· matches .kept ..) = [.kept (.decl ⟨0, 0⟩) 13] ∧
      (∀ later m earlier, st.journal = later ++ m :: earlier →
        m.stack.length ≤ s.options.maxEvaluationDepth ∧ (keysOf m.stack).Nodup ∧
          (∀ key place, position? m.stack key = some place ↔
            0 < place ∧ (keysOf m.stack).reverse[place - 1]? = some key) ∧
          ∀ key type, m.event = .kept key type → Completed key m.stack earlier) ∧
      ∀ m ∈ st.journal, ∀ decl type, m.event = .kept (.decl decl) type →
        Resolved st.session.types decl type := by
  intro files start ops s
  have hrun : (Era.start start).Steady ops ∧
      (start.after ops).Steady ((Era.start start).after ops).since ∧
      (⟨.reentered (.decl ⟨0, 0⟩) 1, [⟨.node 0 5, 1⟩, ⟨.decl ⟨0, 1⟩, 4⟩, ⟨.node 0 1, 3⟩,
        ⟨.node 0 2, 2⟩, ⟨.decl ⟨0, 0⟩, 1⟩]⟩ ∈ ((Inquiry.ofSymbol 0 0).outcome s).journal) ∧
      (((Inquiry.ofSymbol 0 0).outcome s).journal.map (·.event)).filter (· matches .kept ..) =
        [.kept (.decl ⟨0, 0⟩) 13] := by
    decide +kernel
  obtain ⟨hsteady, hnext, hreentered, hkept⟩ := hrun
  have hs : (start.after ops).Passes s := .bind .flush 0
  obtain ⟨hmoments, -, -, hresolved⟩ := results_complete {} files [] ops hs (.ofSymbol 0 0)
  exact ⟨hsteady, hnext, hreentered, hkept, hmoments, hresolved hsteady hnext⟩

/-- After everything was looked at again, a unit whose content is replaced by the same text comes
back with results of the old table of types. One of them is a member of the union that is made next
and has the number of that union, so the declaration that the union is kept for is a member of it. -/
theorem kept_unresolved_after_replacement :
    let files := FileStore.ofList
      [("a.py", "y0 = [1]\ny = [[1]]\n"),
        ("b.py", "from a import y\nc = 1\nw = v if c else y\nv = w\n"), ("c.py", "z = 1\n"),
        ("d.py", "w = 1\n")]
    let ops : List Operation :=
      [.setRoots ["a.py", "b.py", "c.py", "d.py"], .ask (.typeOfSymbol 0 "y0"),
        .ask (.typeOfSymbol 0 "y"), .ask (.typeOfSymbol 2 "z"), .ask (.typeOfSymbol 3 "w"),
        .update "d.py" "v = 1\n", .flush, .update "a.py" "y0 = [1]\ny = [[1]]\n",
        .update "c.py" "z = 2\n"]
    let s := (((Session.new {} files []).after ops).flush.ensureBound 1).2
    let st := (Inquiry.ofSymbol 1 2).outcome s
    ∃ m ∈ st.journal, m.event = .kept (.decl ⟨1, 2⟩) 13 ∧
      ¬ Resolved st.session.types ⟨1, 2⟩ 13 := by
  intro files ops s
  have hrun : (((Inquiry.ofSymbol 1 2).outcome s).journal.any
        (·.event = .kept (.decl ⟨1, 2⟩) 13)) = true ∧
      ((Inquiry.ofSymbol 1 2).outcome s).session.types.members 13 = [12, 13] ∧
      ((Inquiry.ofSymbol 1 2).outcome s).session.types.recursiveDecl? 12 = some ⟨1, 2⟩ := by
    decide +kernel
  obtain ⟨hkept, hmembers, hself⟩ := hrun
  obtain ⟨m, hm, hevent⟩ := List.any_eq_true.mp hkept
  refine ⟨m, hm, by simpa using hevent, fun h => ?_⟩
  exact h 12 (by rw [hmembers]; decide) hself

end LiveCheck
