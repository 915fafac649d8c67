import LiveCheck.Proofs.Evaluation.Answers
import LiveCheck.Proofs.Hints.Knowledge

/-!
# Rules for type expressions

The rules of evaluation give the node of a type expression what the type expression means, if the
nodes before it are answered so: a class for its name, the class of the type with these arguments for
a subscript, and the class of the union for a bar.
-/

namespace LiveCheck

open Session Evaluation Discipline TypeTable

variable {slack limit n : Nat} {file : FileId} {a : Arena} {b : Binding} {keys : List EvalKey}
  {answers : List (EvalKey × TypeId)} {ask : Ask} {node m : NodeId} {st : EvalState}
  {t t' : TypeTable} {h left right : Hint} {cls : BuiltinClass} {form l r : TypeId}
  {ids : List TypeId} {args : List Hint}

/-! ## Values -/

/-- What the value of a type expression stands for is what the type expression means. -/
theorem Hint.Tells.means (ht : h.Tells t form) (hbase : initial.Extends t) (he : t.Extends t')
    (hr : h.Regular t') : h.Means t' (formType t form) := by
  obtain ⟨id, -, hm, hf⟩ := ht t' he hr
  rw [hf.formType_eq hbase]
  exact hm

private theorem Hint.tells_singleton (hbase : initial.Extends t) {kind : ConstantKind}
    (hcls : cls = .none ∧ kind = .none ∨ cls = .ellipsis ∧ kind = .ellipsis) :
    (Hint.cls cls).Tells t (constantType kind) := by
  have hlt {data : TypeData} {id : TypeId} (hfound : t.find? data = some id) : id < t.size :=
    lt_size_of_get? (find?_eq_some_iff.mp hfound).1
  intro t' he _
  rcases hcls with ⟨rfl, rfl⟩ | ⟨rfl, rfl⟩
  · have hfound := find?_none hbase
    exact ⟨TypeId.none, hlt hfound, he.find? hfound, .inr ⟨rfl, .inl rfl⟩⟩
  · have hfound := find?_ellipsis hbase
    exact ⟨TypeId.ellipsis, hlt hfound, he.find? hfound, .inr ⟨rfl, .inr rfl⟩⟩

private theorem Hint.tells_made (data : TypeData)
    (hmeans : ∀ t', t.Extends t' → h.Regular t' →
      t'.find? data = some (intern data t).1 → h.Means t' (intern data t).1) :
    h.Tells ((intern data >>= classObject) t).2 ((intern data >>= classObject) t).1 := by
  let made := intern data t
  have hfound : made.2.find? data = some made.1 := find?_intern t data
  have hlater : made.2.Extends (classObject made.1 made.2).2 := extends_intern _ made.2
  have hform : (classObject made.1 made.2).2.IsForm (classObject made.1 made.2).1 made.1 :=
    isForm_classObject _ _
  have hlt : made.1 < (classObject made.1 made.2).2.size :=
    lt_size_of_get? (find?_eq_some_iff.mp (hlater.find? hfound)).1
  refine fun t' he hr => ⟨made.1, hlt, ?_, hform⟩
  have he' : made.2.Extends t' := hlater.trans he
  exact hmeans t' ((extends_intern data t).trans he') hr (he'.find? hfound)

private theorem Hint.tells_cls (cls : BuiltinClass) (t : TypeTable) :
    (Hint.cls cls).Tells ((builtin cls [] >>= classObject) t).2
      ((builtin cls [] >>= classObject) t).1 :=
  Hint.tells_made (.inst (.builtin cls) []) fun _ _ _ hfound => hfound

private theorem extends_specialized (htakes : cls.Takes ids.length) :
    t.Extends ((specialized cls ids >>= classObject) t).2 := by
  rw [specialized_eq htakes]
  exact (extends_intern _ t).trans (extends_intern _ _)

private theorem Hint.tells_subscript (htakes : cls.Takes ids.length)
    (hmean : ∀ t', t.Extends t' → AllRegular t' args → AllMean t' args ids) :
    (Hint.subscript cls args).Tells ((specialized cls ids >>= classObject) t).2
      ((specialized cls ids >>= classObject) t).1 := by
  rw [specialized_eq htakes]
  exact Hint.tells_made _ fun t' he hr hfound => ⟨ids, hmean t' he hr.2, hfound⟩

private theorem Hint.joins_of_tells (hl : left.Tells t l) (hr : right.Tells t r) (he : t.Extends t')
    (hregular : (Hint.or left right).Regular t') :
    ∃ i j, i < t.size ∧ t.IsForm l i ∧ t.IsForm r j ∧ t.Joins i j := by
  obtain ⟨hleft, hright, hjoins⟩ := hregular
  obtain ⟨i, hilt, hi, hformi⟩ := hl t' he hleft
  obtain ⟨j, hjlt, hj, hformj⟩ := hr t' he hright
  exact ⟨i, j, hilt, hformi, hformj, (hjoins t' i j (.refl t') hi hj).of_extends he hilt hjlt⟩

private theorem Hint.tells_or {i j : TypeId} (hbase : initial.Extends t) (hl : left.Tells t l)
    (hr : right.Tells t r) (hlt : i < t.size) (hi : t.IsForm l i) (hj : t.IsForm r j)
    (hjoins : t.Joins i j) :
    ∃ form, ∃ t' : TypeTable, operation? .bitOr l r t = (some form, t') ∧ t.Extends t' ∧
      (Hint.or left right).Tells t' form := by
  obtain ⟨form, union, t', hop, hmade, hunion, hform⟩ := operation?_bitOr hi hj hjoins hbase
  have hunionlt : union < t'.size := lt_size_of_get? (find?_eq_some_iff.mp hunion).1
  refine ⟨form, t', hop, hmade, fun t'' he hregular => ?_⟩
  have he' : t.Extends t'' := hmade.trans he
  -- the sides go on to stand for the same
  have hsame {side : Hint} {value id : TypeId} (hside : side.Tells t value) (hid : t.IsForm value id)
      (hr : side.Regular t'') : side.Means t'' id := by
    obtain ⟨id', -, hm, hform⟩ := hside t'' he' hr
    rwa [← hid.formType_eq hbase, hform.formType_eq hbase]
  refine ⟨union, hunionlt, ⟨i, j, hsame hl hi hregular.1, hsame hr hj hregular.2.1, ?_⟩, hform⟩
  rw [he'.members hlt]
  exact he.find? hunion

/-! ## Answers to questions -/

/-- What is asked for keeps to the discipline, and type expressions at the nodes before the given one
are answered. -/
private structure Hears (slack : Nat) (file : FileId) (a : Arena) (b : Binding) (limit : Nat)
    (keys : List EvalKey) (answers : List (EvalKey × TypeId)) (ask : Ask) (node : NodeId) :
    Prop where
  sound : ∀ n key, (telling slack file a b limit keys answers).Sound n (ask key) TypeId.Known
  answered : ∀ h m st, m < node → Hint.Stands a b h m →
    (telling slack file a b limit keys answers).Ok st →
      h.Answered file node st (ask (.node file m) st)

/-- The state behind an answer. -/
private structure Heard (slack : Nat) (file : FileId) (a : Arena) (b : Binding) (limit : Nat)
    (keys : List EvalKey) (answers : List (EvalKey × TypeId)) (st : EvalState) (form : TypeId)
    (st' : EvalState) : Prop where
  ok : (telling slack file a b limit keys answers).Ok st'
  advances : st.Advances st'
  extends_types : st.session.types.Extends st'.session.types
  known : form.Known (st'.session.types.extent slack)

variable (hear : Hears slack file a b limit keys answers ask node)
  (hst : (telling slack file a b limit keys answers).Ok st)

private theorem heard_of_outcome {r : TypeId × EvalState}
    (hr : (telling slack file a b limit keys answers).Outcome st TypeId.Known r) :
    Heard slack file a b limit keys answers st r.1 r.2 where
  ok := hr.ok
  advances := hr.step.advances
  extends_types := hr.step.performs.steps.extends
  known := hr.result

include hear hst in
private theorem Hears.heard (m : NodeId) :
    Heard slack file a b limit keys answers st (ask (.node file m) st).1 (ask (.node file m) st).2 :=
  heard_of_outcome (hear.sound 0 _ st hst (Nat.zero_le _))

include hst in
private theorem base_of_telling : initial.Extends st.session.types := hst.2.base

include hst in
/-- The file is seen as it is. -/
theorem bound?_of_telling : ∃ bound, bound? file st = (some bound, st) ∧ bound.arena = a ∧
    bound.binding = b := by
  obtain ⟨u, tree, hu, hb, htree, rfl, hbinding⟩ := hst.2.hosts
  exact ⟨_, bound?_of_tree hst.2.idle hu hb htree hbinding, rfl, rfl⟩

/-! ## Names -/

include hst in
private theorem answered_name (hkeeps : b.KeepsClasses a node) (hnone : cls ≠ .none)
    (hellipsis : cls ≠ .ellipsis) {atom : Nat} (hdata : a.data? node = some (.name atom))
    (htext : a.names.names[atom]? = some cls.name) :
    (Hint.cls cls).Answered file node st (computeExpression ask file node st) := by
  obtain ⟨bound, hbound, rfl, rfl⟩ := bound?_of_telling hst
  have hcls := builtinClassNamed?_name hnone hellipsis
  have hname : bound.arena.nameText? node = some cls.name := by
    rw [Arena.nameText?, hdata]
    simp [NameTable.text, htext]
  have hsome : (builtinClassNamed? cls.name).isSome = true := by rw [hcls]; rfl
  obtain ⟨hdecl, hresolve⟩ := hkeeps node cls.name .root hname hsome
  have hsymbol : BuiltinSymbol.find? cls.name = some (.classDef cls) := by
    rw [BuiltinSymbol.find?, hcls]
    rfl
  -- the name is looked up among what every module sees
  have hrun : computeExpression ask file node st =
      withTypes (builtin cls [] >>= classObject) st := by
    simp only [computeExpression, nameType, nameTypeAt, Bind.bind, StateT.bind, hbound, hdata,
      hdecl, hname, hresolve, builtinType, hsymbol]
    rfl
  rw [hrun]
  exact .inl ⟨Hint.tells_cls cls st.session.types, fun _ _ _ => rfl⟩

include hst in
private theorem answered_cls (hstands : (Hint.cls cls).Stands a b node) :
    (Hint.cls cls).Answered file node st (computeExpression ask file node st) := by
  obtain ⟨bound, hbound, harena, -⟩ := bound?_of_telling hst
  have hconstant (kind : ConstantKind) (text : Option String)
      (hdata : a.data? node = some (.constant kind text)) :
      computeExpression ask file node st = (constantType kind, st) := by
    simp only [computeExpression, Bind.bind, StateT.bind, hbound, harena, hdata]
    rfl
  have hshown : cls.Shown a node := hstands.shown
  by_cases hnone : cls = .none
  · subst hnone
    rw [hconstant .none none hshown]
    exact .inl ⟨Hint.tells_singleton (base_of_telling hst) (.inl ⟨rfl, rfl⟩), fun _ _ _ => rfl⟩
  by_cases hellipsis : cls = .ellipsis
  · subst hellipsis
    rw [hconstant .ellipsis none hshown]
    exact .inl ⟨Hint.tells_singleton (base_of_telling hst) (.inr ⟨rfl, rfl⟩), fun _ _ _ => rfl⟩
  obtain ⟨atom, hdata, htext⟩ := (BuiltinClass.shown_iff hnone hellipsis).mp hshown
  exact answered_name hst hstands.keeps hnone hellipsis hdata htext

/-! ## Subscripts -/

/-- What an argument of a subscript stands for. -/
private abbrev partType (ask : Ask) (file : FileId) (part : NodeId) : EvalM TypeId := do
  let form ← expressionType ask file part
  return formType (← types) form

include hear in
private theorem sound_partType (part : NodeId) :
    (telling slack file a b limit keys answers).Sound n (partType ask file part) TypeId.Known :=
  have h := admits_telling hear.sound
  (sound_expressionType h file part).bind fun _ _ _ hform => sound_formType h hform

include hear hst in
private theorem answered_parts {parts : List NodeId}
    (hargs : List.Forall₂ (fun arg n => n < node ∧ arg.Stands a b n) args parts) :
    ((parts.mapM (partType ask file)) st).1.length = args.length ∧
      ((∀ t', ((parts.mapM (partType ask file)) st).2.session.types.Extends t' →
          Hint.AllRegular t' args →
            Hint.AllMean t' args ((parts.mapM (partType ask file)) st).1 ∧
              ((parts.mapM (partType ask file)) st).2.endless = st.endless) ∨
        st.Stumbles file node ((parts.mapM (partType ask file)) st).2) := by
  induction hargs generalizing st with
  | nil => exact ⟨rfl, .inl fun _ _ _ => ⟨rfl, rfl⟩⟩
  | @cons arg part args parts harg _ ih =>
    let form := (ask (.node file part) st).1
    let st₁ := (ask (.node file part) st).2
    have hheard : Heard slack file a b limit keys answers st form st₁ := hear.heard hst part
    have hanswer : (arg.Tells st₁.session.types form ∧ arg.Ends st st₁) ∨
        st.Stumbles file node st₁ := hear.answered arg part st harg.1 harg.2 hst
    obtain ⟨hlength, hrest⟩ := ih hheard.ok
    have hothers : (telling slack file a b limit keys answers).Outcome st₁ (each TypeId.Known)
        ((parts.mapM (partType ask file)) st₁) :=
      Sound.mapM TypeId.lasting_known (fun part _ _ _ => sound_partType hear part) st₁ hheard.ok
        (Nat.zero_le _)
    have hrun : ((part :: parts).mapM (partType ask file)) st =
        (formType st₁.session.types form :: ((parts.mapM (partType ask file)) st₁).1,
          ((parts.mapM (partType ask file)) st₁).2) := by
      rw [List.mapM_cons]
      rfl
    rw [hrun]
    refine ⟨congrArg (· + 1) hlength, ?_⟩
    rcases hanswer with ⟨htells, hends⟩ | hstumbles
    · refine hrest.imp (fun hmean t' he hr => ?_) (EvalState.Stumbles.after hheard.advances)
      have he₁ := hothers.step.performs.steps.extends.trans he
      obtain ⟨hargs, hended⟩ := hmean t' he hr.2
      exact ⟨⟨_, _, rfl, htells.means hheard.ok.2.base he₁ hr.1, hargs⟩,
        hended.trans (hends t' he₁ hr.1)⟩
    · exact .inr (hstumbles.before hothers.step.advances)

include hear hst in
private theorem answered_specialize {index object id : NodeId}
    (hargs : List.Forall₂ (fun arg n => n < node ∧ arg.Stands a b n) args (a.indexParts index))
    (htakes : cls.Takes args.length)
    (hid : st.session.types.find? (.inst (.builtin cls) []) = some id) :
    (Hint.subscript cls args).Answered file node st
      (specialize ask file node object id index st) := by
  obtain ⟨bound, hbound, harena, -⟩ := bound?_of_telling hst
  obtain ⟨hlength, hparts⟩ := answered_parts hear hst hargs
  have hmade : (telling slack file a b limit keys answers).Outcome st (each TypeId.Known)
      (((a.indexParts index).mapM (partType ask file)) st) :=
    Sound.mapM TypeId.lasting_known (fun part _ _ _ => sound_partType hear part) st hst
      (Nat.zero_le _)
  let ids := (((a.indexParts index).mapM (partType ask file)) st).1
  let st₁ := (((a.indexParts index).mapM (partType ask file)) st).2
  have hextends : st.session.types.Extends st₁.session.types := hmade.step.performs.steps.extends
  have hfound : st₁.session.types.builtinParts? id = some (cls, []) := by
    rw [builtinParts?, (find?_eq_some_iff.mp (hextends.find? hid)).1]
  have hrun : specialize ask file node object id index st =
      withTypes (specialized cls ids >>= classObject) st₁ := by
    have hids : (a.indexParts index).mapM (partType ask file) st = (ids, st₁) := rfl
    unfold specialize
    rw [bind_of_eq hbound]
    dsimp only
    rw [harena]
    refine (bind_of_eq hids).trans ((bind_of_eq (rfl : types st₁ = (st₁.session.types, st₁))).trans ?_)
    rw [hfound]
  rw [hrun]
  have htakes : cls.Takes ids.length := hlength ▸ htakes
  refine hparts.imp (fun hmean => ⟨?_, fun t' he hr => ?_⟩) fun hstumbles => ?_
  · exact Hint.tells_subscript htakes fun t' he hr => (hmean t' he hr).1
  · exact (hmean t' ((extends_specialized htakes).trans he) hr.2).2
  · exact hstumbles.before (EvalState.advances_of_eq rfl rfl)

include hear hst in
private theorem answered_subscript (hstands : (Hint.subscript cls args).Stands a b node) :
    (Hint.subscript cls args).Answered file node st (computeExpression ask file node st) := by
  obtain ⟨bound, hbound, harena, -⟩ := bound?_of_telling hst
  obtain ⟨value, index, hdata, hlt, hvalue, hargs⟩ := hstands.subscript
  have hrules := admits_telling hear.sound
  have hrun : computeExpression ask file node st = subscriptType ask file node value index st := by
    simp only [computeExpression, Bind.bind, StateT.bind, hbound, harena, hdata]
  rw [hrun]
  let object := (ask (.node file value) st).1
  let st₁ := (ask (.node file value) st).2
  have hheard : Heard slack file a b limit keys answers st object st₁ := hear.heard hst value
  have hanswer : ((Hint.cls cls).Tells st₁.session.types object ∧ (Hint.cls cls).Ends st st₁) ∨
      st.Stumbles file node st₁ := hear.answered (.cls cls) value st hlt hvalue hst
  obtain ⟨rest, hrest, hsound⟩ := exists_subscriptRest hrules file node value index
  have hothers : (telling slack file a b limit keys answers).Outcome st₁ TypeId.Known
      (subscriptType ask file node value index st) := by
    rw [hrest]
    exact hsound _ object hheard.known st₁ hheard.ok (Nat.le_refl _)
  rcases hanswer with ⟨htells, hends⟩ | hstumbles
  · by_cases htakes : cls.Takes args.length
    · obtain ⟨id, -, hid, hform⟩ := htells _ (.refl _) trivial
      have hdata := (find?_eq_some_iff.mp hid).1
      have hinner := hform.inner? (base_of_telling hheard.ok) htakes.none htakes.ellipsis hdata
      have hspecialize : subscriptType ask file node value index st =
          specialize ask file node object id index st₁ := by
        have hobject : expressionType ask file value st = (object, st₁) := rfl
        unfold subscriptType
        rw [bind_of_eq hobject]
        refine (bind_of_eq (rfl : types st₁ = (st₁.session.types, st₁))).trans ?_
        rw [hinner]
      rw [hspecialize]
      have hended : st₁.endless = st.endless := hends _ (.refl _) trivial
      exact (answered_specialize hear hheard.ok hargs htakes hid).imp
        (And.imp_right fun hends t' he hr => (hends t' he hr).trans hended)
        (EvalState.Stumbles.after hheard.advances)
    · exact .inl ⟨fun t' _ hr => absurd hr.1 htakes, fun t' _ hr => absurd hr.1 htakes⟩
  · exact .inr (hstumbles.before hothers.step.advances)

/-! ## Bars -/

private theorem binaryOperation_eq {op : BinaryOp} {left right result : TypeId}
    (hl : left ≠ .never ∧ st.session.types.members left = [left] ∧
      st.session.types.recursiveDecl? left = none ∧ st.session.types.declaredClass? left = none)
    (hr : right ≠ .never ∧ st.session.types.members right = [right] ∧
      st.session.types.recursiveDecl? right = none)
    (hop : operation? op left right st.session.types = (some result, t)) :
    binaryOperation ask file node op left right st =
      (result, { st with session := { st.session with types := t } }) := by
  have hnever : (left == .never || right == .never) = false := by simp [hl.1, hr.1]
  have hleft : isPlaceholder left st = (false, st) := by
    change (((st.session.types.members left).any
      fun m => (st.session.types.recursiveDecl? m).isSome), st) = _
    simp [hl.2.1, hl.2.2.1]
  have hright : isPlaceholder right st = (false, st) := by
    change (((st.session.types.members right).any
      fun m => (st.session.types.recursiveDecl? m).isSome), st) = _
    simp [hr.2.1, hr.2.2]
  have hdeclared : isDeclaredInstance left st = (false, st) := by
    change ((st.session.types.declaredClass? left).isSome, st) = _
    rw [hl.2.2.2]
    rfl
  have hmade : withTypes (operation? op left right) st =
      (some result, { st with session := { st.session with types := t } }) := by
    change ((operation? op left right st.session.types).1, { st with
      session := { st.session with types := (operation? op left right st.session.types).2 } }) = _
    rw [hop]
  simp only [binaryOperation, hnever, Bool.false_eq_true, if_false, Bind.bind, StateT.bind, hleft,
    hright, hdeclared, hmade]
  rfl

include hear hst in
private theorem answered_or (hstands : (Hint.or left right).Stands a b node) :
    (Hint.or left right).Answered file node st (computeExpression ask file node st) := by
  obtain ⟨bound, hbound, harena, -⟩ := bound?_of_telling hst
  obtain ⟨i, j, hdata, hi, hleft, hj, hright⟩ := hstands.or
  have hrules := admits_telling hear.sound
  let l := (ask (.node file i) st).1
  let st₁ := (ask (.node file i) st).2
  let r := (ask (.node file j) st₁).1
  let st₂ := (ask (.node file j) st₁).2
  have hrun : computeExpression ask file node st = binaryOperation ask file node .bitOr l r st₂ := by
    simp only [computeExpression, Bind.bind, StateT.bind, hbound, harena, hdata]
    rfl
  rw [hrun]
  have hheard : Heard slack file a b limit keys answers st l st₁ := hear.heard hst i
  have hheard' : Heard slack file a b limit keys answers st₁ r st₂ := hear.heard hheard.ok j
  have hl : l.Known (st₂.session.types.extent slack) :=
    TypeId.lasting_known l _ _ (hheard'.extends_types.extent_le slack) hheard.known
  have hlast : (telling slack file a b limit keys answers).Outcome st₂ TypeId.Known
      (binaryOperation ask file node .bitOr l r st₂) :=
    sound_binaryOperation hrules file node .bitOr hl hheard'.known st₂ hheard'.ok (Nat.le_refl _)
  have hlater := hlast.step.advances
  rcases hear.answered left i st hi hleft hst with ⟨htells, hends⟩ | hstumbles
  · rcases hear.answered right j st₁ hj hright hheard.ok with ⟨htells', hends'⟩ | hstumbles
    · have htells : left.Tells st₂.session.types l := htells.extends hheard'.extends_types
      have htells' : right.Tells st₂.session.types r := htells'
      have hbase := base_of_telling hheard'.ok
      by_cases hex : ∃ t', st₂.session.types.Extends t' ∧ (Hint.or left right).Regular t'
      · obtain ⟨t', he, hregular⟩ := hex
        obtain ⟨id, id', hlt, hid, hid', hjoins⟩ := Hint.joins_of_tells htells htells' he hregular
        obtain ⟨form, t'', hop, hmade, hform⟩ :=
          Hint.tells_or hbase htells htells' hlt hid hid' hjoins
        obtain ⟨hplain, hsettled⟩ := hid.settled hbase
        obtain ⟨hplain', hmembers, hrecursive, -⟩ := hid'.settled hbase
        rw [binaryOperation_eq ⟨fun hnever => hplain (by simp [hnever]), hsettled⟩
          ⟨fun hnever => hplain' (by simp [hnever]), hmembers, hrecursive⟩ hop]
        refine .inl ⟨hform, fun t' he hr => ?_⟩
        have he' : st₂.session.types.Extends t' := hmade.trans he
        exact (hends' t' he' hr.2.1).trans (hends t' (hheard'.extends_types.trans he') hr.1)
      · -- what cannot be regular need not be answered
        have hnot (t' : TypeTable) (he : (binaryOperation ask file node .bitOr l r
            st₂).2.session.types.Extends t') : ¬ (Hint.or left right).Regular t' :=
          fun hr => hex ⟨t', hlast.step.performs.steps.extends.trans he, hr⟩
        exact .inl ⟨fun t' he hr => absurd hr (hnot t' he), fun t' he hr => absurd hr (hnot t' he)⟩
    · exact .inr ((hstumbles.before hlater).after hheard.advances)
  · exact .inr (hstumbles.before (hheard'.advances.trans hlater))

include hear hst in
private theorem answered_expression (hstands : h.Stands a b node) :
    h.Answered file node st (computeExpression ask file node st) := by
  cases h with
  | cls cls => exact answered_cls hst hstands
  | subscript cls args => exact answered_subscript hear hst hstands
  | or left right => exact answered_or hear hst hstands

end LiveCheck

/-!
## What the engine answers for type expressions

By induction on the room that is left on the stack, every evaluation keeps right what is known about
type expressions, and answers the node of a type expression by what it means, unless a full stack or
an unfinished computation was met on the way. What such an answer was used for is not kept.
-/

namespace LiveCheck

open Session Evaluation Discipline TypeTable

variable {slack limit n room : Nat} {file : FileId} {a : Arena} {b : Binding} {keys : List EvalKey}
  {answers : List (EvalKey × TypeId)} {key : EvalKey} {st : EvalState} {type : TypeId} {α : Type}
  {R : α → Nat → Prop}

/-- The key is answered by what a type expression means, if it is that of its node. -/
def Replies (file : FileId) (a : Arena) (b : Binding) (key : EvalKey) (st : EvalState)
    (r : TypeId × EvalState) : Prop :=
  ∀ h n, key = .node file n → Hint.Stands a b h n → h.Answered file (n + 1) st r

/-! ### Operations of the engine -/

private theorem outcome_of_telling {r : α × EvalState}
    (hr : (telling slack file a b limit keys answers).Outcome st R r) :
    (evaluation slack limit keys answers).Outcome st R r := ⟨hr.ok.1, hr.step, hr.grows, hr.result⟩

private theorem telling_of_evaluation {r : α × EvalState}
    (hr : (evaluation slack limit keys answers).Outcome st R r) (hs : r.2.session.Tells file a b) :
    (telling slack file a b limit keys answers).Outcome st R r :=
  ⟨⟨hr.ok, hs⟩, hr.step, hr.grows, hr.result⟩

private theorem replies_memo? (hst : (telling slack file a b limit keys answers).Ok st)
    (hfound : (memo? key st).1 = some type) : Replies file a b key st (type, (memo? key st).2) := by
  rintro h n rfl hstands
  have hmemo : (telling slack file a b limit keys answers).Outcome st _ (memo? (.node file n) st) :=
    sound_telling (sound_memo? _) st hst (Nat.zero_le _)
  exact .inl ⟨hmemo.ok.2.known h n type hstands (knows_of_memo? hst.1.access hfound),
    fun _ _ _ => ends_memo? _ st⟩

private theorem replies_placeholder {place : Nat} (hplace : position? st.stack key = some place) :
    Replies file a b key st (Evaluation.placeholder key (noteReentry key place st).2) := by
  rintro h n rfl -
  refine .inr (.inr ⟨n, Nat.lt_succ_self n, place, hplace, ?_⟩)
  exact ⟨[⟨.reentered (.node file n) place, lowerTop place st.stack⟩], rfl, _,
    List.mem_singleton_self _, rfl⟩

private theorem told_tooDeep (hfits : Fits limit keys answers) (hfull : keys.length = limit)
    (hst : (telling slack file a b limit keys answers).Ok st) (key : EvalKey) :
    (telling slack file a b limit keys answers).Outcome st TypeId.Known (tooDeep key st) ∧
      Replies file a b key st (tooDeep key st) := by
  have hout : (evaluation slack limit keys answers).Outcome st TypeId.Known (tooDeep key st) :=
    sound_tooDeep hfits hfull key st hst.1 (Nat.zero_le _)
  obtain ⟨st₁, hreport, heq⟩ := tooDeep_eq hst.1.access key
  rw [heq] at hout ⊢
  refine ⟨telling_of_evaluation hout (hst.2.prepares hreport.step.1), fun h n _ _ => .inr (.inl ?_)⟩
  have hadvances := EvalState.advances_of_eq hreport.step.2.stack hreport.step.2.journal
  refine EvalState.Marks.after hadvances ⟨[⟨.exceeded key, lowerTop 0 st₁.stack⟩], rfl, _,
    List.mem_singleton_self _, rfl⟩

private theorem tells_remember (hst : (access slack).Ok st) (htells : st.session.Tells file a b)
    (hright : ∀ h n, key = .node file n → Hint.Stands a b h n → h.Tells st.session.types type) :
    (remember key type st).2.session.Tells file a b ∧
      st.session.types.Extends (remember key type st).2.session.types := by
  obtain ⟨hsite, hopen⟩ := outcome_openSite? hst key
  simp only [remember, Bind.bind, StateT.bind]
  generalize openSite? key st = r at hsite hopen ⊢
  have hprepared := htells.prepares hsite.step.1
  have hextends := hsite.step.1.performs.steps.extends
  obtain ⟨_ | ⟨f, node⟩, st'⟩ := r
  · exact ⟨hprepared, hextends⟩
  · obtain ⟨rfl, u, hu, hnode⟩ := hopen f node rfl
    refine ⟨hprepared.learned hu hnode fun h n hkey hstands => ?_, hextends⟩
    exact (hright h n hkey hstands).extends hextends

/-! ### Computations -/

private theorem suffix_pop (position : Nat) (st : EvalState) :
    st.journal <:+ (pop position st).2.journal := by
  unfold pop
  split
  · exact List.suffix_refl _
  · exact List.suffix_cons _ _

private theorem told_computation (hfits : Fits limit keys answers)
    (hst : (telling slack file a b limit keys answers).Ok st) (hnew : Unsettled keys key st.session)
    {m : EvalM TypeId}
    (hrun : (telling slack file a b limit (key :: keys) answers).Outcome (push key st).2 TypeId.Known
      (m (push key st).2))
    (hanswer : ∀ h n, key = .node file n → Hint.Stands a b h n →
      h.Answered file n (push key st).2 (m (push key st).2)) :
    (telling slack file a b limit keys answers).Outcome st TypeId.Known (computation key m st) ∧
      Replies file a b key st (computation key m st) := by
  have hout := outcome_computation hfits hst.1 hnew (outcome_of_telling hrun)
  have hpop := outcome_pop hfits hst.1 (outcome_of_telling hrun)
  let found := (m (push key st).2).1
  let st₁ := (m (push key st).2).2
  let popped := pop (st.stack.length + 1) st₁
  have hsession : popped.2.session = st₁.session := session_pop ..
  have hfound : found.Known (popped.2.session.types.extent slack) := hsession ▸ hrun.result
  obtain ⟨hfinish, -⟩ := outcome_finish hpop.ok.access key hfound
  let finished := finish key found popped.2
  have htells : finished.2.session.Tells file a b :=
    (hsession ▸ hrun.ok.2 : popped.2.session.Tells file a b).prepares hfinish.step.1
  obtain ⟨top, hstack, -⟩ := stack_computed hrun.ok.1 hrun.step.advances
  have hjournal : st₁.journal <:+ finished.2.journal := by
    rw [hfinish.step.2.journal]
    exact suffix_pop _ st₁
  -- what was found for a type expression is right, or the computation has seen something below itself
  have hnode (h : Hint) (n : NodeId) (hkey : key = .node file n) (hstands : h.Stands a b n) :
      (h.Tells finished.2.session.types finished.1 ∧ h.Ends st finished.2) ∨
        ¬ st.stack.length + 1 ≤ popped.1 ∧ st.Stumbles file n finished.2 := by
    subst hkey
    have htypes : popped.2.session.types = st₁.session.types := congrArg Session.types hsession
    refine (hanswer h n rfl hstands).imp (fun hright => ?_) fun hstumbles => ?_
    · change h.Tells popped.2.session.types found ∧ h.Ends st popped.2
      obtain ⟨htells, hends⟩ := hright
      have hends : h.Ends st st₁ := hends
      refine ⟨htypes ▸ htells, hends.later (htypes ▸ .refl _) (ends_pop _ st₁)⟩
    · obtain ⟨place, hle, hmarks, hstumbles⟩ := hstumbles.of_push
      have hlowest := hmarks.lowestSeen_le hrun.step.advances
      have hpopped : popped.1 = top.lowest := by simp only [popped, pop, st₁, hstack]
      rw [hstack] at hlowest
      have hlowest : top.lowest ≤ place := hlowest
      exact ⟨by omega, hstumbles.later hjournal⟩
  have htail : computation key m st =
      (if st.stack.length + 1 ≤ popped.1 then (do remember key finished.1; return finished.1)
        else return finished.1 : EvalM TypeId) finished.2 := rfl
  rw [htail] at hout ⊢
  split at hout
  · next hle =>
    have hright (h : Hint) (n : NodeId) (hkey : key = .node file n) (hstands : h.Stands a b n) :=
      (hnode h n hkey hstands).resolve_right fun hnot => hnot.1 hle
    obtain ⟨hkept, hextends⟩ := tells_remember hfinish.ok htells fun h n hkey hstands =>
      (hright h n hkey hstands).1
    rw [if_pos hle]
    refine ⟨telling_of_evaluation hout hkept, fun h n hkey hstands => .inl ?_⟩
    obtain ⟨hright, hends⟩ := hright h n hkey hstands
    exact ⟨hright.extends hextends, hends.later hextends (ends_remember _ _ finished.2)⟩
  · next hnot =>
    rw [if_neg hnot]
    refine ⟨telling_of_evaluation hout htells, fun h n hkey hstands => ?_⟩
    exact (hnode h n hkey hstands).imp_right fun hstumbles => hstumbles.2.mono (Nat.le_succ n)

/-! ### Evaluations -/

private theorem told_rules {ask : Ask} (hfits : Fits limit keys answers)
    (hfits' : Fits limit (key :: keys) answers) (hkey : key ∉ keys)
    (hask : ∀ answers', Fits limit (key :: keys) answers' → ∀ key' st,
      (telling slack file a b limit (key :: keys) answers').Ok st →
        (telling slack file a b limit (key :: keys) answers').Outcome st TypeId.Known (ask key' st) ∧
          Replies file a b key' st (ask key' st))
    (hst : (telling slack file a b limit (key :: keys) answers).Ok st) :
    (telling slack file a b limit (key :: keys) answers).Outcome st TypeId.Known
        (compute ask key st) ∧
      ∀ h n, key = .node file n → Hint.Stands a b h n →
        h.Answered file n st (compute ask key st) := by
  have hsound (answers' : List (EvalKey × TypeId)) (hfits' : Fits limit (key :: keys) answers')
      (n : Nat) (key' : EvalKey) :
      (telling slack file a b limit (key :: keys) answers').Sound n (ask key') TypeId.Known :=
    fun st hst _ => (hask answers' hfits' key' st hst).1
  have hnew := hfits.new hkey
  constructor
  · refine sound_compute (admits_telling (hsound answers hfits')) key (fun n type htype => ?_) st hst
      (Nat.zero_le _)
    refine ⟨telling slack file a b limit (key :: keys) ((key, type) :: answers),
      admits_telling (hsound _ (hfits'.answer type)), fun hm st hst hn => ?_⟩
    have hknown := TypeId.lasting_known type n _ hn htype
    have hrun := hm _ ⟨inOrder_setProvisional hst.1 hnew hknown, hst.2⟩ hn
    exact telling_of_evaluation (outcome_withProvisional hnew (outcome_of_telling hrun)) hrun.ok.2
  · rintro h n rfl hstands
    refine answered_expression ⟨hsound answers hfits', fun h m st hm hstands hst => ?_⟩ hst hstands
    exact ((hask answers hfits' _ st hst).2 h m rfl hstands).imp_right fun hstumbles =>
      hstumbles.mono hm

-- One level of the engine, as for the discipline of all evaluations.
private theorem told_level (hfits : Fits limit keys answers) (hroom : room + keys.length = limit)
    (hrules : ∀ room' key st, room = room' + 1 → key ∉ keys →
      (telling slack file a b limit (key :: keys) answers).Ok st →
        (telling slack file a b limit (key :: keys) answers).Outcome st TypeId.Known
          (compute (evaluateBy compute room') key st) ∧
        ∀ h n, key = .node file n → Hint.Stands a b h n →
          h.Answered file n st (compute (evaluateBy compute room') key st)) (key : EvalKey)
    (hst : (telling slack file a b limit keys answers).Ok st) :
    (telling slack file a b limit keys answers).Outcome st TypeId.Known
        (evaluateBy compute room key st) ∧
      Replies file a b key st (evaluateBy compute room key st) := by
  have hmemo : (telling slack file a b limit keys answers).Outcome st _ (memo? key st) :=
    sound_telling (sound_memo? key) st hst (Nat.zero_le _)
  have hfound (type : TypeId) : (memo? key st).1 = some type →
      Replies file a b key st (type, (memo? key st).2) := replies_memo? hst
  have hunknown := fun hnone : (memo? key st).1 = none =>
    not_knows_of_memo? hst.1.access hst.2.idle hnone
  rcases hr : memo? key st with ⟨found, st'⟩
  rw [hr] at hmemo hfound hunknown
  cases found with
  | some type =>
    rw [evaluateBy_of_memo? _ _ hr]
    exact ⟨⟨hmemo.ok, hmemo.step, hmemo.grows, hmemo.result type rfl⟩, hfound type rfl⟩
  | none =>
    have hst' : (telling slack file a b limit keys answers).Ok st' := hmemo.ok
    have hended : st'.endless = st.endless := by
      have hends := ends_memo? key st
      rwa [hr] at hends
    -- what is answered behind the lookup is answered as a whole
    have hwhole {r : TypeId × EvalState}
        (hr : (telling slack file a b limit keys answers).Outcome st' TypeId.Known r ∧
          Replies file a b key st' r) :
        (telling slack file a b limit keys answers).Outcome st TypeId.Known r ∧
          Replies file a b key st r :=
      ⟨hmemo.trans hr.1, fun h n hkey hstands => (hr.2 h n hkey hstands).imp
        (And.imp_right fun hends t he hregular => (hends t he hregular).trans hended)
        (EvalState.Stumbles.after hmemo.step.advances)⟩
    refine hwhole ?_
    cases hplace : position? st'.stack key with
    | some place =>
      rw [evaluateBy_reentered _ _ hr hplace]
      have hnote := outcome_noteReentry hfits hst'.1 hplace
      have htold : (telling slack file a b limit keys answers).Outcome st' anything
        (noteReentry key place st') := telling_of_evaluation hnote hst'.2
      refine ⟨htold.trans ?_, replies_placeholder hplace⟩
      exact sound_telling (sound_placeholder key) _ htold.ok (Nat.zero_le _)
    | none =>
      have hkey : key ∉ keys := hst'.1.stacked ▸ position?_eq_none_iff.mp hplace
      have hnew : Unsettled keys key st'.session := ⟨hkey, fun _ => hunknown rfl⟩
      cases room with
      | zero =>
        rw [evaluateBy_zero _ hr hplace]
        exact told_tooDeep hfits (by omega) hst' key
      | succ room =>
        rw [evaluateBy_succ _ _ hr hplace]
        have hpush : (telling slack file a b limit (key :: keys) answers).Ok (push key st').2 :=
          ⟨inOrder_push hfits hst'.1 (by omega) hkey, hst'.2⟩
        obtain ⟨hrun, hanswer⟩ := hrules room key _ rfl hkey hpush
        exact told_computation hfits hst' hnew hrun hanswer

/-- Every evaluation keeps right what is known about type expressions, and answers a type expression
by what it means. -/
theorem told_evaluateBy (hfits : Fits limit keys answers) (hroom : room + keys.length = limit)
    (key : EvalKey) (hst : (telling slack file a b limit keys answers).Ok st) :
    (telling slack file a b limit keys answers).Outcome st TypeId.Known
        (evaluateBy compute room key st) ∧
      Replies file a b key st (evaluateBy compute room key st) := by
  induction room generalizing keys answers key st with
  | zero => exact told_level hfits hroom (fun _ _ _ h => absurd h (Nat.zero_ne_add_one _)) key hst
  | succ room ih =>
    refine told_level hfits hroom (fun room' key' st h hkey hst => ?_) key hst
    obtain rfl := Nat.succ.inj h
    refine told_rules hfits (hfits.cons (by omega) hkey) hkey
      (fun answers' hfits' key'' st hst => ?_) hst
    refine ih hfits' ?_ key'' hst
    rw [List.length_cons]
    omega

end LiveCheck
