import LiveCheck.Proofs.Session.Questions

/-!
# Declarations that are found are bound

Whatever declarations a question finds, their files are bound behind it: the file of the position,
the files of the classes and modules whose attributes are looked up, and the files that imported
names lead to.
-/

namespace LiveCheck

open Session Evaluation Discipline

/-! ## Attributes -/

variable {decls : List DeclId}

namespace Evaluation

variable {slack limit : Nat} {α β : Type} {P : Session → Prop} {Q Q' : α → Session → Prop}
  {R : β → Session → Prop} {m : EvalM α} {f : α → EvalM β} {l : List α}

private def Leaves (slack limit : Nat) (P : Session → Prop) (m : EvalM α) (Q : α → Session → Prop) :
    Prop :=
  ∀ st : EvalState, st.InOrder slack limit [] [] → P st.session → Q (m st).1 (m st).2.session

private theorem Leaves.pure {a : α} (h : ∀ s, P s → Q a s) : Leaves slack limit P (Pure.pure a) Q :=
  fun _ _ hst => h _ hst

private theorem Leaves.true (m : EvalM α) :
    Leaves slack limit P m fun _ _ => True := fun _ _ _ => trivial

private theorem Leaves.imp {P' : Session → Prop} (hm : Leaves slack limit P m Q)
    (hP : ∀ s, P' s → P s)
    (hQ : ∀ a s, Q a s → Q' a s) :
    Leaves slack limit P' m Q' := fun st hst hs => hQ _ _ (hm st hst (hP _ hs))

private theorem Leaves.and (hm : Leaves slack limit P m Q) (hm' : Leaves slack limit P m Q') :
    Leaves slack limit P m fun a s => Q a s ∧ Q' a s :=
  fun st hst hs => ⟨hm st hst hs, hm' st hst hs⟩

private theorem Leaves.bind (hsound : (evaluation slack limit [] []).Sound 0 m anything)
    (hm : Leaves slack limit P m Q) (hf : ∀ a, Leaves slack limit (Q a) (f a) R) :
    Leaves slack limit P (m >>= f) R :=
  fun st hst hs => hf (m st).1 (m st).2 (hsound st hst (Nat.zero_le _)).ok (hm st hst hs)

private theorem Leaves.keep (hsound : (evaluation slack limit [] []).Sound 0 m anything)
    (hlast : ∀ s t, Evaluates slack s t → P s → P t) : Leaves slack limit P m fun _ => P :=
  fun st hst hs => hlast _ _ (hsound st hst (Nat.zero_le _)).step.performs.steps hs

private theorem Leaves.findSomeM? {f : α → EvalM (Option β)}
    (hsound : ∀ a, (evaluation slack limit [] []).Sound 0 (f a) anything)
    (hf : ∀ a, Leaves slack limit P (f a) fun o s => P s ∧ ∀ b ∈ o, R b s) :
    Leaves slack limit P (l.findSomeM? f) fun o s => ∀ b ∈ o, R b s := by
  induction l with
  | nil => exact .pure fun _ _ => nofun
  | cons a l ih =>
    rw [List.findSomeM?]
    refine .bind (hsound a) (hf a) fun o => ?_
    cases o with
    | some b => exact .pure fun _ h => h.2
    | none => exact ih.imp (fun _ h => h.1) fun _ _ h => h

private theorem Leaves.mapM (hlast : ∀ b s t, Evaluates slack s t → R b s → R b t)
    (hsound : ∀ a, (evaluation slack limit [] []).Sound 0 (f a) anything)
    (hf : ∀ a, Leaves slack limit (fun _ => True) (f a) R) :
    Leaves slack limit (fun _ => True) (l.mapM f) fun bs s => ∀ b ∈ bs, R b s := by
  induction l with
  | nil => exact .pure fun _ _ => nofun
  | cons a l ih =>
    have hrest : (evaluation slack limit [] []).Sound 0 (l.mapM f) anything := by
      refine (Sound.mapM lasting_anything fun a _ _ _ st hst _ => ?_).forget
      exact hsound a st hst (Nat.zero_le _)
    rw [List.mapM_cons]
    refine .bind (hsound a) (hf a) fun b => ?_
    refine .bind hrest ((Leaves.keep hrest (hlast b)).and (ih.imp (fun _ _ => trivial)
      fun _ _ h => h)) fun bs => .pure fun s h => ?_
    rw [List.forall_mem_cons]
    exact h

private theorem leaves_bound? (file : FileId) :
    Leaves slack limit P (bound? file) fun o s => ∀ bound ∈ o, s.IsBound bound.file := by
  intro st hst _ bound hbound
  have hbound : (st.session.bindFile file).1 = some bound := hbound
  obtain ⟨u, hu, hb, -⟩ := bound_of_bindFile hst.coherent.tidy hbound
  have hfile : bound.file = file := by
    unfold Session.bindFile at hbound
    split at hbound
    · simp only [Session.boundFile?, Option.bind_eq_bind, Option.bind_eq_some_iff] at hbound
      obtain ⟨u, -, tree, -, binding, -, hbound⟩ := hbound
      rw [← Option.some.inj hbound]
    · exact absurd hbound.symm (Option.some_ne_none bound)
  rw [hfile]
  exact ⟨u, hu, hb⟩

private theorem leaves_classDefinition? (decl : DeclId) :
    Leaves slack limit P (classDefinition? decl) fun o s => ∀ r ∈ o, s.IsBound r.1.file := by
  refine .bind (sound_declaration? admits_evaluate decl) (.true _) fun d => ?_
  split
  · split
    · exact .pure fun _ _ => nofun
    · refine .bind (admits_evaluate.binds 0 decl.file) (leaves_bound? decl.file) fun o =>
        .pure fun s ho r hr => ?_
      obtain ⟨bound, hbound, rfl⟩ := Option.map_eq_some_iff.mp hr
      exact ho bound hbound
  · exact .pure fun _ _ => nofun

private theorem leaves_classScope? (decl : DeclId) :
    Leaves slack limit P (classScope? decl) fun o s => ∀ r ∈ o, s.IsBound r.1.file := by
  refine .bind (sound_classDefinition? admits_evaluate.binds decl) (leaves_classDefinition? decl)
    fun o => ?_
  split
  · next bound node =>
    refine .pure fun s ho r hr => ?_
    obtain ⟨scope, -, rfl⟩ := Option.map_eq_some_iff.mp hr
    exact ho (bound, node) rfl
  · exact .pure fun _ _ => nofun

/-- The files of some declarations are bound. -/
def FilesBound (decls : List DeclId) (s : Session) : Prop := ∀ decl ∈ decls, s.IsBound decl.file

private theorem FilesBound.evaluates {s t : Session} (h : Evaluates slack s t)
    (hs : FilesBound decls s) :
    FilesBound decls t :=
  fun decl hdecl => Query.isBound_of_evaluates h (hs decl hdecl)

theorem filesBound_nil (s : Session) : FilesBound [] s := fun _ h => nomatch h

private theorem filesBound_declIds {bound : BoundFile} {s : Session} (h : s.IsBound bound.file)
    (symbol : SymbolId) : FilesBound (declIds bound symbol) s := by
  intro decl hdecl
  obtain ⟨index, -, rfl⟩ := List.mem_map.mp hdecl
  exact h

private theorem leaves_memberDeclarationsIn? (access : Access) (name : String) (cls : ClassKey) :
    Leaves slack limit P (memberDeclarationsIn? access name cls) fun o s =>
      ∀ decls ∈ o, FilesBound decls s := by
  cases cls with
  | builtin _ => exact .pure fun _ _ => nofun
  | declared d =>
    refine .bind (sound_classScope? admits_evaluate d.decl) (leaves_classScope? d.decl) fun o => ?_
    split
    · next bound scope =>
      refine .pure fun s ho decls hdecls => ?_
      obtain ⟨symbol, -, rfl⟩ := Option.map_eq_some_iff.mp hdecls
      exact filesBound_declIds (ho (bound, scope) rfl) symbol
    · exact .pure fun _ _ => nofun

private theorem leaves_memberDeclarationsOf (cls : ClassKey) (access : Access) (name : String) :
    Leaves slack limit P (memberDeclarationsOf evaluate cls access name) FilesBound := by
  have hsound (cls : ClassKey) : (evaluation slack limit [] []).Sound 0
      (memberDeclarationsIn? access name cls) anything :=
    (sound_memberDeclarationsIn? admits_evaluate access name cls).forget
  refine .bind (sound_searchOrder admits_evaluate cls) (.true _) fun order => ?_
  have hfirst : Leaves slack limit (fun _ => True)
      (order.findSomeM? (memberDeclarationsIn? access name)) fun o s =>
        ∀ decls ∈ o, FilesBound decls s :=
    .findSomeM? hsound fun cls => (Leaves.true _).and (leaves_memberDeclarationsIn? access name cls)
  refine .bind (Sound.findSomeM? lasting_anything fun cls _ _ _ =>
    sound_memberDeclarationsIn? admits_evaluate access name cls).forget hfirst fun o =>
      .pure fun s ho => ?_
  cases o with
  | none => exact filesBound_nil s
  | some decls => exact ho decls rfl

private theorem leaves_simpleMemberDeclarations (name : String) (object : TypeId) :
    Leaves slack limit P (simpleMemberDeclarations evaluate name object) FilesBound := by
  refine .bind (sound_types admits_evaluate).forget (.true _) fun t => ?_
  split
  · next file _ _ =>
    refine .bind (admits_evaluate.binds 0 file) (leaves_bound? file) fun o => ?_
    split
    · next bound =>
      refine .pure fun s ho => ?_
      cases bound.binding.moduleSymbol? name with
      | none => exact filesBound_nil s
      | some symbol => exact filesBound_declIds (ho bound rfl) symbol
    · exact .pure fun s _ => filesBound_nil s
  · exact leaves_memberDeclarationsOf _ _ name
  · split
    · exact leaves_memberDeclarationsOf _ _ name
    · exact .pure fun s _ => filesBound_nil s
  · exact .pure fun s _ => filesBound_nil s

private theorem leaves_memberDeclarationsUpTo (name : String) (fuel : Nat) (object : TypeId) :
    Leaves slack limit (fun _ => True) (memberDeclarationsUpTo evaluate name fuel object)
      FilesBound := by
  induction fuel generalizing object with
  | zero => exact fun st _ _ => filesBound_nil _
  | succ fuel ih =>
    refine .bind (sound_types admits_evaluate).forget (.true _) fun t => ?_
    have hsound (m : TypeId) : (evaluation slack limit [] []).Sound 0
        (memberDeclarationsUpTo evaluate name fuel m) anything :=
      sound_memberDeclarationsUpTo admits_evaluate name fuel m
    split
    · next members _ =>
      have hall : (evaluation slack limit [] []).Sound 0
          (members.mapM (memberDeclarationsUpTo evaluate name fuel)) anything := by
        refine (Sound.mapM lasting_anything fun m _ _ _ => ?_).forget
        exact sound_memberDeclarationsUpTo admits_evaluate name fuel m
      have heach : Leaves slack limit (fun _ => True)
          (members.mapM (memberDeclarationsUpTo evaluate name fuel)) fun found s =>
            ∀ decls ∈ found, FilesBound decls s :=
        .mapM (fun _ _ _ h hs => hs.evaluates h) hsound ih
      refine .bind hall heach fun found => .pure fun s hfound decl hdecl => ?_
      obtain ⟨decls, hdecls, hdecl⟩ := List.mem_flatten.mp (List.mem_eraseDups.mp hdecl)
      exact hfound decls hdecls decl hdecl
    · exact leaves_simpleMemberDeclarations name object

private theorem leaves_memberDeclarations (object : TypeId) (name : String) :
    Leaves slack limit (fun _ => True) (memberDeclarations evaluate object name) FilesBound :=
  .bind (sound_types admits_evaluate).forget (.true _) fun _ =>
    leaves_memberDeclarationsUpTo name _ object

end Evaluation

/-! ## Imported names -/

namespace Query

variable {slack : Nat} {α β : Type} {s t : Session} {file : FileId} {q : Query α} {decl : DeclId}

private def Finds (slack : Nat) (s : Session) (q : Query α) (Q : α → Session → Prop) : Prop :=
  ∃ a t, q.run s = (.ok a, t) ∧ Performs slack s t ∧ Q a t

private theorem Finds.pure {a : α} {Q : α → Session → Prop} (h : Q a s) :
    Finds slack s (Pure.pure a) Q := ⟨a, s, rfl, .refl s, h⟩

private theorem Finds.get {f : Session → Query α} {Q : α → Session → Prop}
    (h : Finds slack s (f s) Q) :
    Finds slack s (MonadState.get >>= f) Q := h

private theorem Finds.bind {f : α → Query β} {Q : α → Session → Prop} {R : β → Session → Prop}
    (hq : Finds slack s q Q) (hf : ∀ a t, Performs slack s t → Q a t → Finds slack t (f a) R) :
    Finds slack s (q >>= f) R := by
  obtain ⟨a, t, hrun, hperforms, ha⟩ := hq
  obtain ⟨b, r, hrun', hperforms', hb⟩ := hf a t hperforms ha
  exact ⟨b, r, (run_bind_ok hrun).trans hrun', hperforms.trans hperforms', hb⟩

private theorem tidy_of_performs (h : Performs slack s t) (hs : s.Tidy) : t.Tidy :=
  h.steps.induct (fun _ _ hstep => hstep.tidy) hs

private theorem Finds.mapM {f : DeclId → Query (List DeclId)}
    (hf : ∀ decl s, s.Tidy → s.IsBound decl.file → Finds slack s (f decl) FilesBound) (hs : s.Tidy)
    (hdecls : FilesBound decls s) :
    Finds slack s (decls.mapM f) fun found t => FilesBound found.flatten t := by
  induction decls generalizing s with
  | nil => exact .pure (filesBound_nil s)
  | cons decl decls ih =>
    have hbound := List.forall_mem_cons.mp hdecls
    rw [List.mapM_cons]
    refine (hf decl s hs hbound.1).bind fun first t ht hfirst => ?_
    have hrest : FilesBound decls s := hbound.2
    refine (ih (tidy_of_performs ht hs) (hrest.evaluates ht.steps)).bind fun found r hr hfound => ?_
    refine .pure fun d hd => ?_
    rw [List.flatten_cons, List.mem_append] at hd
    rcases hd with hd | hd
    · exact isBound_of_evaluates hr.steps (hfirst d hd)
    · exact hfound d hd

/-- The declarations of a symbol of a module are those of the file. -/
theorem file_eq_of_mem_symbolDeclarations {target : FileId} {binding : Option Binding}
    {member : String}
    (h : decl ∈ (binding.bind fun b => (b.moduleSymbol? member).map fun symbol =>
      (b.declarationsOf symbol).map fun d => (⟨target, d⟩ : DeclId)).getD []) :
    decl.file = target := by
  cases hfound : binding.bind fun b => (b.moduleSymbol? member).map fun symbol =>
      (b.declarationsOf symbol).map fun d => (⟨target, d⟩ : DeclId) with
  | none =>
    rw [hfound] at h
    exact nomatch h
  | some decls =>
    obtain ⟨b, -, hdecls⟩ := Option.bind_eq_some_iff.mp hfound
    obtain ⟨symbol, -, rfl⟩ := Option.map_eq_some_iff.mp hdecls
    rw [hfound] at h
    obtain ⟨index, -, rfl⟩ := List.mem_map.mp h
    rfl

private theorem finds_aliasTargets (hs : s.Tidy) (decl : DeclId) :
    Finds slack s (aliasTargets decl) FilesBound := by
  refine .get ?_
  dsimp only
  split
  · next path level member _ _ _ _ =>
    let r := s.resolveImport decl.file path level
    have hresolve : Finds slack s (operate (·.resolveImport decl.file path level)) fun o t =>
        t = r.2 :=
      ⟨r.1, r.2, rfl, (prepares_resolveImport s decl.file path level).performs, rfl⟩
    refine hresolve.bind fun o t ht _ => ?_
    have htidy := tidy_of_performs ht hs
    cases o with
    | none => exact .pure (filesBound_nil t)
    | some target =>
      have hensure : Finds slack t (operate (·.ensureBound target)) fun b t =>
          b = true → t.IsBound target :=
        ⟨(t.ensureBound target).1, (t.ensureBound target).2, rfl,
          (prepares_ensureBound htidy target).performs, (binds_ensureBound htidy target).2⟩
      refine hensure.bind fun b t _ hbound => ?_
      cases b with
      | false => exact .pure (filesBound_nil t)
      | true =>
        refine ⟨_, t, rfl, .refl t, fun d hd => ?_⟩
        rw [file_eq_of_mem_symbolDeclarations hd]
        exact hbound rfl
  · exact .pure (filesBound_nil s)

private theorem finds_followAlias (fuel : Nat) (hs : s.Tidy) (hb : s.IsBound decl.file) :
    Finds slack s (followAlias fuel decl) FilesBound := by
  -- A name that leads nowhere stands for itself.
  have hself {s t : Session} {decl : DeclId} (hb : s.IsBound decl.file) (ht : Performs slack s t) :
      FilesBound [decl] t := by
    intro d hd
    rw [List.mem_singleton.mp hd]
    exact isBound_of_evaluates ht.steps hb
  induction fuel generalizing s decl with
  | zero => exact (finds_aliasTargets hs decl).bind fun _ t ht _ => .pure (hself hb ht)
  | succ fuel ih =>
    rw [followAlias]
    refine (finds_aliasTargets hs decl).bind fun targets t ht htargets => ?_
    split
    · exact .pure (hself hb ht)
    · exact (Finds.mapM (fun _ _ ht hd => ih ht hd) (tidy_of_performs ht hs) htargets).bind
        fun found r _ hfound => .pure hfound

private theorem finds_followAliases (hs : s.Tidy) (hb : FilesBound decls s) :
    Finds slack s (followAliases decls) FilesBound := by
  refine (Finds.mapM (fun _ _ ht hd => finds_followAlias Limits.aliasChain ht hd) hs hb).bind
    fun found t _ hfound => .pure fun d hd => ?_
  exact hfound d (List.mem_eraseDups.mp hd)

/-! ## Declarations at a position -/

private theorem filesBound_nameDeclarations (hb : s.IsBound file) (binding : Binding)
    (node : NodeId)
    (name : String) : FilesBound (nameDeclarations binding file node name) s := by
  intro decl hdecl
  obtain ⟨index, -, rfl⟩ := List.mem_map.mp hdecl
  exact hb

/-- If the question has an answer, then the files of the declarations that it finds are bound. -/
def Yields (s : Session) (q : Query (List DeclId)) : Prop :=
  ∀ decls, (q.run s).1 = .ok decls → FilesBound decls (q.run s).2

private theorem Finds.yields {q : Query (List DeclId)} (h : Finds slack s q FilesBound) :
    Yields s q := by
  obtain ⟨decls, t, hrun, -, hdecls⟩ := h
  intro others hothers
  rw [hrun] at hothers ⊢
  rwa [← Except.ok.inj hothers]

private theorem yields_bind {f : α → Query (List DeclId)}
    (hf : ∀ a t, q.run s = (.ok a, t) → Yields t (f a)) : Yields s (q >>= f) := by
  rcases hrun : q.run s with ⟨e | a, t⟩
  · intro decls hdecls
    rw [run_bind_error hrun] at hdecls
    exact nomatch hdecls
  · intro decls hdecls
    rw [run_bind_ok hrun] at hdecls ⊢
    exact hf a t hrun decls hdecls

private theorem yields_get {f : Session → Query (List DeclId)} (hf : Yields s (f s)) :
    Yields s (get >>= f) := hf

private theorem yields_attribute (hs : s.Tidy) (value : NodeId) (name : String) :
    Yields s (do
      let decls ← evaluating do
        let object ← expressionType evaluate file value
        memberDeclarations evaluate object name
      followAliases decls) := by
  refine yields_bind fun decls t hrun => ?_
  obtain ⟨slack, hc⟩ := hs.exists_coherent
  let m : EvalM (List DeclId) := do
    let object ← expressionType evaluate file value
    memberDeclarations evaluate object name
  have hsound (limit : Nat) : (evaluation slack limit [] []).Sound 0 m anything :=
    (sound_expressionType admits_evaluate file value).bind fun object _ _ _ =>
      sound_memberDeclarations admits_evaluate object name
  have hleaves (limit : Nat) : Leaves slack limit (fun _ => True) m FilesBound :=
    .bind (sound_expressionType admits_evaluate file value).forget (.true _) fun object =>
      leaves_memberDeclarations object name
  rw [run_evaluating] at hrun
  obtain ⟨hfound, ht⟩ := Prod.mk.inj hrun
  have hdecls : decls ∈ (run m s).1 := by
    cases hr : (run m s).1 with
    | none =>
      rw [hr] at hfound
      exact nomatch hfound
    | some found =>
      rw [hr] at hfound
      exact congrArg some (Except.ok.inj hfound)
  have hbound : FilesBound decls t := by
    rw [← ht, ← (mem_run.mp hdecls).2]
    exact hleaves _ _ (inOrder_start hc) trivial
  have htidy : t.Tidy := ht ▸ tidy_of_performs (run_of_sound hc hsound).1 hs
  have hfollow : Finds slack t (followAliases decls) FilesBound := finds_followAliases htidy hbound
  exact hfollow.yields

/-- The files of the declarations that are found at a position are bound. -/
theorem yields_declarationsAt (hs : s.Tidy) (file : FileId) (position : Position) :
    Yields s (declarationsAt file position) := by
  refine yields_bind fun _ t hprepared => ?_
  have hensure : (ensureBound file).run s.flush = (.ok (), t) := hprepared
  have hbound := isBound_of_ensureBound hs.flush (congrArg Prod.fst hensure)
  have htidy : ((ensureBound file).run s.flush).2.Tidy := by
    rw [run_ensureBound]
    exact (binds_ensureBound hs.flush file).1.tidy hs.flush
  rw [hensure] at hbound htidy
  refine yields_get ?_
  dsimp only
  split
  · have hnone : Finds 0 t (pure []) FilesBound := .pure (filesBound_nil t)
    exact hnone.yields
  · next node bound name _ =>
    split
    · exact yields_attribute htidy _ name
    · have hnames : Finds 0 t (followAliases (nameDeclarations bound.binding file node name))
          FilesBound :=
        finds_followAliases htidy (filesBound_nameDeclarations hbound bound.binding node name)
      exact hnames.yields

end Query
end LiveCheck
