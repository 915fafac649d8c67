import LiveCheck.Proofs.CurrentTypes
import LiveCheck.Proofs.FoundDeclarations
import LiveCheck.Proofs.Session.Generations

/-!
# Handles lead back to what was found

If a declaration or a type that a question has found is registered within the generation of the
question, then its handle leads to that declaration with the same name, kind and place, or to that
type with the same text, for as long as it leads anywhere. For types the flushes up to the question
have to be steady, so that the type that was found exists.

Declarations and types do not say which generation they are of. So what was found in one generation
can be registered in the next one, and its handle then leads to whatever has the number there.
-/

namespace LiveCheck

open Session Evaluation Discipline TypeTable

/-! ## What questions find -/

variable {question : Question} {decl : DeclId}

namespace Session

variable {s : Session} {file : FileId}

/-- The answer to a question for declarations. -/
def declarationsFound (s : Session) : Question → Except NoAnswer (List DeclId)
  | .declarationsAt file position => ((Query.declarationsAt file position).run s).1
  | _ => .ok []

/-- The answer to a question for a type. -/
def typeFound (s : Session) : Question → Except NoAnswer (Option TypeId)
  | .typeOfNode file node => ((Query.typeOfNode file node).run s).1
  | .typeAt file position => ((Query.typeAt file position).run s).1
  | .typeOfSymbol file name => ((Query.typeOfSymbol file name).run s).1
  | _ => .ok none

private theorem isBound_of_declarationsFound (hs : s.Tidy) {decls : List DeclId}
    (h : s.declarationsFound question = .ok decls) (hdecl : decl ∈ decls) :
    (s.asked question).IsBound decl.file := by
  cases question with
  | declarationsAt file position =>
    exact Query.yields_declarationsAt hs file position decls h decl hdecl
  | _ =>
    obtain rfl := Except.ok.inj h
    exact nomatch hdecl

private def Has (s : Session) (type : TypeId) : Prop := s.types.Closed 0 ∧ type < s.types.size

end Session

namespace Query

variable {α : Type} {s t : Session} {file : FileId}

private def Makes (s : Session) (q : Query (Option TypeId)) : Prop :=
  ∀ type, (q.run s).1 = .ok (some type) → (q.run s).2.Has type

private theorem makes_pure : Makes s (pure none) := fun _ h => nomatch Except.ok.inj h

private theorem makes_get {f : Session → Query (Option TypeId)} (hf : Makes s (f s)) :
    Makes s (get >>= f) := hf

private theorem makes_prepare (hs : s.flush.Coherent 0) {f : Unit → Query (Option TypeId)}
    (hf : ∀ t, t.Coherent 0 → Makes t (f ())) : Makes s (prepare file >>= f) := by
  have hflush : (modify Session.flush : Query PUnit).run s = (.ok ⟨⟩, s.flush) := rfl
  have hprepare : (prepare file).run s = (ensureBound file).run s.flush := run_bind_ok hflush
  have hensure := run_ensureBound s.flush file
  intro type h
  cases hb : (s.flush.ensureBound file).1 with
  | false =>
    rw [hb] at hensure
    rw [run_bind_error (hprepare.trans hensure)] at h
    exact nomatch h
  | true =>
    rw [hb] at hensure
    rw [run_bind_ok (hprepare.trans hensure)] at h ⊢
    have hperforms : Performs 0 s.flush (s.flush.ensureBound file).2 :=
      (prepares_ensureBound hs.tidy file).performs
    exact hf _ (hperforms.steps.coherent hs) type h

private theorem makes_evaluating (hs : s.Coherent 0) {m : EvalM α} (found : α → Option TypeId)
    (hm : ∀ limit, (evaluation 0 limit [] []).Sound 0 m fun a k =>
      ∀ type ∈ found a, type.Known k) : Makes s (found <$> evaluating m) := by
  obtain ⟨hperforms, hknown⟩ := run_of_sound hs hm
  intro type h
  rw [run_map, run_evaluating] at h ⊢
  have hcoherent := hperforms.steps.coherent hs
  refine ⟨hcoherent.closed, ?_⟩
  cases hr : (run m s).1 with
  | none =>
    rw [hr] at h
    exact nomatch h
  | some a =>
    rw [hr] at h
    have hlt := hcoherent.closed.lt_extent (hknown a hr type (Except.ok.inj h))
    exact extent_zero (run m s).2.types ▸ hlt

private theorem makes_typeOfNode? (hs : s.Coherent 0) (file : FileId) (node : NodeId) :
    Makes s (evaluating (typeOfNode? evaluate file node)) := by
  have h := makes_evaluating hs id fun _ => sound_typeOfNode? admits_evaluate file node
  rwa [id_map] at h

end Query

namespace Session

variable {s t : Session} {file : FileId} {type : TypeId} {text : String}

private theorem has_of_typeFound (hs : s.flush.Coherent 0)
    (h : s.typeFound question = .ok (some type)) :
    (s.asked question).Has type := by
  cases question with
  | typeOfNode file node =>
    exact Query.makes_prepare hs (fun _ ht => Query.makes_typeOfNode? ht file node) type h
  | typeAt file position =>
    refine Query.makes_prepare hs (fun t ht => Query.makes_get ?_) type h
    split
    · exact Query.makes_typeOfNode? ht file _
    · exact Query.makes_pure
  | typeOfSymbol file name =>
    refine Query.makes_prepare hs (fun t ht => Query.makes_get ?_) type h
    dsimp only
    split
    · next symbol _ =>
      refine Query.makes_evaluating ht some fun _ => ?_
      refine (sound_symbolType admits_evaluate file symbol).imp fun a _ _ ha other hother => ?_
      rwa [← Option.mem_some.mp hother]
    · exact Query.makes_pure
  | _ => exact nomatch Except.ok.inj h

/-! ## Registering and resolving -/

private theorem run_registerDeclaration (decl : DeclId) :
    (Query.registerDeclaration decl).run s =
      if (s.flush.declaration? decl).isSome then
        (.ok (s.flush.handles.register (.declaration decl)).1,
          { s.flush with handles := (s.flush.handles.register (.declaration decl)).2 })
      else (.ok none, s.flush) := by
  have hrun : (Query.registerDeclaration decl).run s =
      (if (s.flush.declaration? decl).isSome then Query.register (.declaration decl)
        else return none : Query (Option String)).run s.flush := rfl
  rw [hrun]
  split <;> rfl

private def Issued (s : Session) (text : String) (target : HandleTarget) : Prop :=
  ∃ handle, handle.text = text ∧ (handle, target) ∈ s.handles.entries

private theorem issued_declaration (hs : s.flush.Registers)
    (h : ((Query.registerDeclaration decl).run s).1 = .ok (some text)) :
    (s.asked (.registerDeclaration decl)).Issued text (.declaration decl) := by
  change Issued ((Query.registerDeclaration decl).run s).2 _ _
  rw [run_registerDeclaration] at h ⊢
  split at h
  · next hsome =>
    rw [if_pos hsome]
    exact HandleRegistry.mem_register hs.1 (Except.ok.inj h)
  · exact nomatch Except.ok.inj h

private theorem issued_type (hs : s.flush.Registers)
    (h : ((Query.registerType type).run s).1 = .ok (some text)) :
    (s.asked (.registerType type)).Issued text (.type type) :=
  HandleRegistry.mem_register hs.1 (Except.ok.inj h)

private theorem Stays.declaration? (h : s.Stays t) (hs : s.Tidy) (hb : s.IsBound decl.file)
    (hsome : (t.declaration? decl).isSome = true) :
    t.declaration? decl = s.declaration? decl := by
  obtain ⟨u, hu, hbound⟩ := hb
  have hfirm : u.Firm := ⟨((hs decl.file u hu).bound hbound).2, .inl hbound⟩
  cases hv : t.unit? decl.file with
  | none => simp [Session.declaration?, hv] at hsome
  | some v =>
    have hsame := (h.bindings decl.file u v hu hfirm hv).2
    simp [Session.declaration?, hu, hv, hsame]

private theorem stays_of_issued {registered : Session} (hregistered : registered.Reached)
    (hlater : s.Later registered) (hsame : registered.generation = s.generation)
    {target other : HandleTarget} (hissued : registered.Issued text target) (later : List Operation)
    (hfound : (registered.after later).flush.handles.target? text = some other) :
    other = target ∧ s.Stays (registered.after later).flush := by
  obtain ⟨handle, rfl, hmem⟩ := hissued
  have ht : (registered.after later).Reached := hregistered.after later
  have hlater' : registered.Later (registered.after later).flush :=
    (hregistered.maintained.later_after later).trans (later_flush ht.maintained.orderly.1)
  obtain ⟨htarget, hgeneration⟩ := hregistered.registers.target?_of_later
    (ht.apply .flush).registers hlater' hmem hfound
  exact ⟨htarget, (hlater.trans hlater').stays (hgeneration.trans hsame)⟩

/-- In every run: if what a question has found is registered before the next generation begins, then
its handle leads to the same thing for as long as it leads anywhere. A declaration is the same as it
was behind the question, and a type has the same text, if all flushes up to the question were
steady. -/
theorem handle_leads_to_found (options : Options) (files : FileStore) (hostPaths : List String)
    (ops : List Operation) (question : Question) (between later : List Operation) :
    let start := Session.new options files hostPaths
    let s := start.after ops
    let found := s.asked question
    let now := found.after between
    now.flush.generation = found.generation →
      (∀ decls decl handle, s.declarationsFound question = .ok decls → decl ∈ decls →
        ((Query.registerDeclaration decl).run now).1 = .ok (some handle) →
        let t := (now.asked (.registerDeclaration decl)).after later
        ∀ other, ((Query.declarationOf handle).run t).1 = .ok (some other) →
          other = decl ∧
            (t.asked (.declarationOf handle)).declaration? decl = found.declaration? decl) ∧
      ((Era.start start).Steady ops → s.Steady ((Era.start start).after ops).since →
        ∀ type handle, s.typeFound question = .ok (some type) →
        ((Query.registerType type).run now).1 = .ok (some handle) →
        let t := (now.asked (.registerType type)).after later
        ∀ other, ((Query.typeOf handle).run t).1 = .ok (some other) →
          other = type ∧
            (t.asked (.typeOf handle)).types.format type = found.types.format type) := by
  intro start s found now hgeneration
  have hs : s.Reached := ⟨options, files, hostPaths, ops, rfl⟩
  have hfound : found.Reached := hs.apply (.ask question)
  have hnow : now.Reached := hfound.after between
  have hflushed : now.flush.Registers := (hnow.apply .flush).registers
  constructor
  · intro decls decl handle hdecls hdecl hhandle t other hother
    have hissued := issued_declaration hflushed hhandle
    have hsame : (now.asked (.registerDeclaration decl)).generation = found.generation := by
      rw [← hgeneration]
      change ((Query.registerDeclaration decl).run now).2.generation = _
      rw [run_registerDeclaration]
      split <;> rfl
    obtain ⟨htarget, hsome⟩ := Option.filter_eq_some_iff.mp (Except.ok.inj hother)
    obtain ⟨hsame, hstays⟩ := stays_of_issued (hnow.apply (.ask (.registerDeclaration decl)))
      ((hfound.maintained.later_after between).trans (hnow.maintained.later_apply _)) hsame hissued
      later (HandleRegistry.declaration?_eq_some_iff.mp htarget)
    obtain rfl := HandleTarget.declaration.inj hsame
    refine ⟨rfl, hstays.declaration? hfound.maintained.orderly.1 ?_ hsome⟩
    exact isBound_of_declarationsFound hs.maintained.orderly.1 hdecls hdecl
  · intro hsteady hnext type handle htype hhandle t other hother
    have hissued := issued_type hflushed hhandle
    obtain ⟨hsame, hstays⟩ := stays_of_issued (hnow.apply (.ask (.registerType type)))
      ((hfound.maintained.later_after between).trans (hnow.maintained.later_apply _)) hgeneration
      hissued later (HandleRegistry.type?_eq_some_iff.mp (Except.ok.inj hother))
    obtain rfl := HandleTarget.type.inj hsame
    have hcoherent := coherent_flush options files hostPaths ops hsteady hnext
    obtain ⟨hclosed, hlt⟩ := has_of_typeFound hcoherent htype
    exact ⟨rfl, hstays.types.format hclosed hlt⟩

/-- A list and its name are registered behind an update with the same content, which begins no
generation, and their handles lead back to them behind a check. -/
theorem handle_leads_to_found_of_list :
    let files := FileStore.ofList [("a.py", "x = [1]\n")]
    let s := (Session.new {} files []).after [.setRoots ["a.py"]]
    let between : List Operation := [.update "a.py" "x = [1]\n"]
    let later : List Operation := [.ask (.checkProgram false)]
    (let found := s.asked (.declarationsAt 0 ⟨0, 0⟩)
      let t := ((found.after between).asked (.registerDeclaration ⟨0, 0⟩)).after later
      ((Query.declarationOf "g1:d1").run t).1 = .ok (some ⟨0, 0⟩) ∧
        (t.asked (.declarationOf "g1:d1")).declaration? ⟨0, 0⟩ = found.declaration? ⟨0, 0⟩) ∧
    (let found := s.asked (.typeOfSymbol 0 "x")
      let t := ((found.after between).asked (.registerType 12)).after later
      ((Query.typeOf "g1:t1").run t).1 = .ok (some 12) ∧
        (t.asked (.typeOf "g1:t1")).types.format 12 = found.types.format 12) := by
  intro files s between later
  constructor
  · intro found t
    have hrun : (found.after between).flush.generation = found.generation ∧
        s.declarationsFound (.declarationsAt 0 ⟨0, 0⟩) = .ok [⟨0, 0⟩] ∧
        ((Query.registerDeclaration ⟨0, 0⟩).run (found.after between)).1 = .ok (some "g1:d1") ∧
        ((Query.declarationOf "g1:d1").run t).1 = .ok (some ⟨0, 0⟩) := by
      decide +kernel
    obtain ⟨hgeneration, hfound, hhandle, hresolved⟩ := hrun
    have hfaithful := (handle_leads_to_found {} files [] [.setRoots ["a.py"]]
      (.declarationsAt 0 ⟨0, 0⟩) between later hgeneration).1
    exact ⟨hresolved, (hfaithful _ _ _ hfound List.mem_cons_self hhandle _ hresolved).2⟩
  · intro found t
    have hrun : (found.after between).flush.generation = found.generation ∧
        (Era.start (.new {} files [])).Steady [.setRoots ["a.py"]] ∧
        s.Steady ((Era.start (.new {} files [])).after [.setRoots ["a.py"]]).since ∧
        s.typeFound (.typeOfSymbol 0 "x") = .ok (some 12) ∧
        ((Query.registerType 12).run (found.after between)).1 = .ok (some "g1:t1") ∧
        ((Query.typeOf "g1:t1").run t).1 = .ok (some 12) := by
      decide +kernel
    obtain ⟨hgeneration, hsteady, hnext, hfound, hhandle, hresolved⟩ := hrun
    have hfaithful := (handle_leads_to_found {} files [] [.setRoots ["a.py"]]
      (.typeOfSymbol 0 "x") between later hgeneration).2 hsteady hnext
    exact ⟨hresolved, (hfaithful _ _ hfound hhandle _ hresolved).2⟩

/-- A name and a list that were found before an update are registered behind it. Their handles lead
to another name and to another list. -/
theorem handle_leads_elsewhere :
    let files := FileStore.ofList [("a.py", "x = [1]\n")]
    let s := (Session.new {} files []).after [.setRoots ["a.py"]]
    let change : List Operation := [.update "a.py" "y = [\"\"]\n"]
    (let found := s.asked (.declarationsAt 0 ⟨0, 0⟩)
      let now := found.after change
      let t := now.asked (.registerDeclaration ⟨0, 0⟩)
      s.declarationsFound (.declarationsAt 0 ⟨0, 0⟩) = .ok [⟨0, 0⟩] ∧
        (found.declaration? ⟨0, 0⟩).map (·.name) = some "x" ∧
        ((Query.registerDeclaration ⟨0, 0⟩).run now).1 = .ok (some "g2:d1") ∧
        ((Query.declarationOf "g2:d1").run t).1 = .ok (some ⟨0, 0⟩) ∧
        ((t.asked (.declarationOf "g2:d1")).declaration? ⟨0, 0⟩).map (·.name) = some "y") ∧
    (let found := s.asked (.typeOfSymbol 0 "x")
      let now := found.after change
      let t := (now.asked (.registerType 12)).asked (.typeOfSymbol 0 "y")
      s.typeFound (.typeOfSymbol 0 "x") = .ok (some 12) ∧
        found.types.format 12 = "list[int]" ∧
        ((Query.registerType 12).run now).1 = .ok (some "g2:t1") ∧
        ((Query.typeOf "g2:t1").run t).1 = .ok (some 12) ∧
        (t.asked (.typeOf "g2:t1")).types.format 12 = "list[str]") := by
  decide +kernel

end Session
end LiveCheck
