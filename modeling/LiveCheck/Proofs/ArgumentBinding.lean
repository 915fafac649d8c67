import LiveCheck.Proofs.Evaluation.Access

/-!
# Calls whose arguments bind

When a function is called, arguments by position fill the parameters from left to right, arguments
by keyword fill parameters of their names, and `*args` and `**kwargs` take what is left. A method
that is called on a receiver has the receiver as its first argument. Where this succeeds, a check of
the call compares types and reports no wrong number of arguments and no unknown keyword, with one
exception: the check drops the first parameter for the receiver, also if that is `*args`, and so
finds too many arguments.
-/

namespace LiveCheck.Evaluation

/-! ## Parameters as they are written -/

/-- How a parameter takes its arguments. -/
inductive FormalKind
  /-- Behind it stands a bare `/`. -/
  | positionalOnly
  | standard
  | varArgs
  /-- Before it stands `*args` or a bare `*`. -/
  | keywordOnly
  | kwArgs
deriving DecidableEq

namespace FormalKind

/-- Whether arguments by position fill the parameter. -/
def isPositional : FormalKind → Bool
  | positionalOnly | standard => true
  | _ => false

/-- Whether an argument by keyword fills the parameter. -/
def takesKeyword : FormalKind → Bool
  | standard | keywordOnly => true
  | _ => false

/-- Whether the parameter takes any number of arguments. -/
def isVariadic : FormalKind → Bool
  | varArgs | kwArgs => true
  | _ => false

/-- Which parameters come first. -/
def rank : FormalKind → Nat
  | positionalOnly => 0
  | standard => 1
  | varArgs => 2
  | keywordOnly => 3
  | kwArgs => 4

private def paramKind : FormalKind → ParamKind
  | positionalOnly | standard => .positional
  | varArgs => .varArgs
  | keywordOnly => .keywordOnly
  | kwArgs => .kwArgs

end FormalKind

/-- A parameter of a definition. -/
structure Formal where
  name : String
  kind : FormalKind
  hasDefault : Bool
deriving DecidableEq

/-- Whether a bare `/` is among some parameters. -/
def hasSlash (a : Arena) (nodes : List NodeId) : Bool :=
  nodes.any fun node => (a.data? node) matches some (.parameter .positionalMarker ..)

/-- Whether parameters behind are passed by keyword. -/
def isStar : ParameterForm → Bool
  | .varArgs | .keywordMarker => true
  | _ => false

/-- The kind of a parameter; a bare `*` or `/` is none. -/
def formalKind? (behindStar beforeSlash : Bool) : ParameterForm → Option FormalKind
  | .normal =>
    some (if behindStar then .keywordOnly else if beforeSlash then .positionalOnly else .standard)
  | .varArgs => some .varArgs
  | .kwArgs => some .kwArgs
  | .keywordMarker | .positionalMarker => none

/-- The parameters of a definition. -/
def formals (a : Arena) : Bool → List NodeId → List Formal
  | _, [] => []
  | behindStar, node :: nodes =>
    match a.data? node with
    | some (.parameter form name _ default) =>
      let rest := formals a (behindStar || isStar form) nodes
      match formalKind? behindStar (hasSlash a nodes) form with
      | some kind => ⟨(a.optionalName? name).getD "", kind, default.isSome⟩ :: rest
      | none => rest
    | _ => formals a behindStar nodes

/-- Parameters have different names and stand in the order of their kinds, and at most one takes any
number of arguments of a kind. -/
structure WellFormed (fs : List Formal) : Prop where
  distinct : (fs.map (·.name)).Nodup
  ordered : fs.Pairwise fun f g => f.kind.rank ≤ g.kind.rank ∧
    (f.kind = g.kind → f.kind.isVariadic = false)

/-! ## Binding -/

/-- The parameters that are filled by position. -/
def filledByPosition (fs : List Formal) (positional : Nat) : List Formal :=
  (fs.filter (·.kind.isPositional)).take positional

/-- A number of arguments by position and arguments by keyword bind to parameters. -/
structure Binds (fs : List Formal) (positional : Nat) (keywords : List String) : Prop where
  /-- No keyword is given twice. -/
  once : keywords.Nodup
  /-- All arguments by position have a parameter. -/
  room : positional ≤ (fs.filter (·.kind.isPositional)).length ∨ ∃ f ∈ fs, f.kind = .varArgs
  /-- Every keyword names a parameter that is not filled by position, or none that could take it. -/
  taken : ∀ keyword ∈ keywords,
    (∃ f ∈ fs, f.kind.takesKeyword = true ∧ f.name = keyword ∧
      f ∉ filledByPosition fs positional) ∨
    ((∀ f ∈ fs, f.kind.takesKeyword = true → f.name ≠ keyword) ∧ ∃ f ∈ fs, f.kind = .kwArgs)
  /-- No parameter without a default value is left out. -/
  filled : ∀ f ∈ fs, f.kind.isVariadic = false → f.hasDefault = false →
    f ∈ filledByPosition fs positional ∨ f.kind.takesKeyword = true ∧ f.name ∈ keywords

instance (fs : List Formal) (positional : Nat) (keywords : List String) :
    Decidable (Binds fs positional keywords) :=
  decidable_of_iff (keywords.Nodup ∧
      (positional ≤ (fs.filter (·.kind.isPositional)).length ∨ ∃ f ∈ fs, f.kind = .varArgs) ∧
      (∀ keyword ∈ keywords, (∃ f ∈ fs, f.kind.takesKeyword = true ∧ f.name = keyword ∧
        f ∉ filledByPosition fs positional) ∨
        ((∀ f ∈ fs, f.kind.takesKeyword = true → f.name ≠ keyword) ∧
          ∃ f ∈ fs, f.kind = .kwArgs)) ∧
      ∀ f ∈ fs, f.kind.isVariadic = false → f.hasDefault = false →
        f ∈ filledByPosition fs positional ∨ f.kind.takesKeyword = true ∧ f.name ∈ keywords)
    ⟨fun ⟨h₁, h₂, h₃, h₄⟩ => ⟨h₁, h₂, h₃, h₄⟩, fun h => ⟨h.once, h.room, h.taken, h.filled⟩⟩

/-- `f(1, 2, 3, k=4)` for `def f(a, /, b, *rest, k, **others)`. -/
example : Binds [⟨"a", .positionalOnly, false⟩, ⟨"b", .standard, false⟩, ⟨"rest", .varArgs, false⟩,
    ⟨"k", .keywordOnly, false⟩, ⟨"others", .kwArgs, false⟩] 3 ["k"] := by decide

/-- `f(1, a=2)` for `def f(a)`. -/
example : ¬ Binds [⟨"a", .standard, false⟩] 1 ["a"] := by decide

/-! ## The parameters of a function type -/

/-- A parameter of a function type is the one of its definition. -/
private structure Formal.Matches (f : Formal) (p : Param) : Prop where
  name : p.name = f.name
  kind : p.kind = f.kind.paramKind
  hasDefault : p.hasDefault = f.hasDefault

private theorem paramKind_eq (behindStar beforeSlash : Bool) (form : ParameterForm) :
    paramKind behindStar form =
      ((formalKind? behindStar beforeSlash form).map FormalKind.paramKind,
        behindStar || isStar form) := by
  cases form <;> cases behindStar <;> cases beforeSlash <;> rfl

private theorem matches_paramTypes (ask : Ask) (file : FileId) (a : Arena) (nodes : List NodeId) :
    ∀ (behindStar : Bool) (st : EvalState), List.Forall₂ Formal.Matches (formals a behindStar nodes)
      (paramTypes ask file a behindStar nodes st).1 := by
  induction nodes with
  | nil => exact fun _ _ => .nil
  | cons node nodes ih =>
    intro behindStar st
    cases hnode : a.data? node with
    | none => simpa only [formals, paramTypes, hnode] using ih behindStar st
    | some data =>
      cases data
      case parameter form name hint default =>
        simp only [formals, paramTypes, hnode, paramKind_eq behindStar (hasSlash a nodes)]
        cases formalKind? behindStar (hasSlash a nodes) form with
        | none => exact ih _ _
        | some kind => exact .cons ⟨rfl, rfl, rfl⟩ (ih _ _)
      all_goals simpa only [formals, paramTypes, hnode] using ih behindStar st

variable {f : Formal} {p : Param} {n : Nat} {keywords : List String}

section Matching

variable {fs : List Formal} {params : List Param}

private theorem mem_params_of_mem (hmatch : List.Forall₂ Formal.Matches fs params) (hf : f ∈ fs) :
    ∃ p ∈ params, f.Matches p := by
  induction hmatch with
  | nil => cases hf
  | cons h _ ih =>
    obtain rfl | hf := List.mem_cons.mp hf
    · exact ⟨_, List.mem_cons_self, h⟩
    · obtain ⟨p, hp, hfp⟩ := ih hf
      exact ⟨p, List.mem_cons_of_mem _ hp, hfp⟩

private theorem kind_beq_positional (h : f.Matches p) :
    (p.kind == .positional) = f.kind.isPositional := by
  rw [h.kind]
  cases f.kind <;> rfl

section

variable (hmatch : List.Forall₂ Formal.Matches fs params)
include hmatch

private theorem positionalPlaces (start : Nat) :
    ((params.zipIdx start).filter (·.1.kind == .positional)).map (·.2) =
      ((fs.zipIdx start).filter (·.1.kind.isPositional)).map (·.2) := by
  induction hmatch generalizing start with
  | nil => rfl
  | cons h _ ih =>
    simp only [List.zipIdx_cons, List.filter_cons, kind_beq_positional h]
    split <;> simp [ih]

private theorem isNone_find?_kind {kind : ParamKind} {formalKind : FormalKind}
    (hkind : ∀ k : FormalKind, k.paramKind = kind ↔ k = formalKind) :
    (params.find? (·.kind == kind)).isNone = true ↔ ∀ f ∈ fs, f.kind ≠ formalKind := by
  induction hmatch with
  | nil => simp
  | @cons f p _ _ h _ ih =>
    have hp : (p.kind == kind) = true ↔ f.kind = formalKind := by
      rw [beq_iff_eq, h.kind, hkind]
    by_cases hf : f.kind = formalKind
    · simp [hp.mpr hf, hf]
    · simp [Bool.eq_false_iff.mpr (mt hp.mp hf), hf, ih]

private theorem isNone_varArgs :
    (params.find? (·.kind == .varArgs)).isNone = true ↔ ∀ f ∈ fs, f.kind ≠ .varArgs :=
  isNone_find?_kind hmatch fun k => by cases k <;> decide

private theorem isNone_kwArgs :
    (params.find? (·.kind == .kwArgs)).isNone = true ↔ ∀ f ∈ fs, f.kind ≠ .kwArgs :=
  isNone_find?_kind hmatch fun k => by cases k <;> decide

end

private theorem takesName_iff (h : f.Matches p) :
    takesName p = true ↔ f.kind.isVariadic = false := by
  rw [takesName, h.kind]
  cases f.kind <;> decide

end Matching

/-! ## Where arguments go -/

/-- The parameter for an argument that is passed by keyword. -/
def keywordTaker? (params : List Param) (name : String) : Option Param :=
  ((named? params name).map (·.1)).or (params.find? (·.kind == .kwArgs))

/-- The arguments that are passed by position, each with its parameter. -/
def positionalTakers (params : List Param) (args : List Argument) : List (Argument × Param) :=
  let positional := args.filter (·.form == .positional)
  positional.zip (params.filter (·.kind == .positional) ++
    (params.find? (·.kind == .varArgs)).elim [] (List.replicate positional.length))

/-- The arguments that are passed by keyword, each with its parameter. -/
def keywordTakers (params : List Param) (args : List Argument) : List (Argument × Param) :=
  (args.filter (·.form == .keyword)).filterMap fun arg =>
    (arg.name.bind (keywordTaker? params)).map (arg, ·)

/-- The arguments of a call, each with its parameter. -/
def takers (params : List Param) (args : List Argument) : List (Argument × Param) :=
  positionalTakers params args ++ keywordTakers params args

/-- Compares the types of arguments with those of their parameters. -/
def checkTypes (ask : Ask) (file : FileId) (pairs : List (Argument × Param)) : EvalM Unit :=
  pairs.forM fun (arg, p) => checkArgument ask file arg p

private theorem checkTypes_cons (ask : Ask) (file : FileId) (arg : Argument) (p : Param)
    (pairs : List (Argument × Param)) : checkTypes ask file ((arg, p) :: pairs) =
      (do checkArgument ask file arg p; checkTypes ask file pairs) := rfl

private theorem checkTypes_append (ask : Ask) (file : FileId)
    (pairs more : List (Argument × Param)) :
    checkTypes ask file (pairs ++ more) =
      (do checkTypes ask file pairs; checkTypes ask file more) := by
  simp [checkTypes, List.forM_append]

private theorem checkPositional_eq (ask : Ask) (file : FileId) (rest : Option Param)
    (places : List Param) (args : List Argument) : ∀ n, args.length ≤ n →
      checkPositional ask file rest places args =
        checkTypes ask file (args.zip (places ++ rest.elim [] (List.replicate n))) := by
  induction args generalizing places with
  | nil => intro n _; cases places <;> simp [checkPositional, checkTypes]
  | cons arg args ih =>
    intro n hn
    rw [List.length_cons] at hn
    cases places with
    | cons p places =>
      rw [checkPositional, ih places n (by omega)]
      rfl
    | nil =>
      cases rest with
      | none =>
        rw [checkPositional, ih [] n (by omega)] <;> simp [checkTypes]
      | some p =>
        obtain ⟨m, rfl⟩ : ∃ m, n = m + 1 := ⟨n - 1, by omega⟩
        rw [checkPositional, ih [] m (by omega)]
        rfl

private theorem checkKeywords_eq (ask : Ask) (file : FileId) (params : List Param)
    (args : List Argument)
    (htaken : ∀ arg ∈ args, arg.form = .keyword →
      ∃ name, arg.name = some name ∧ (keywordTaker? params name).isSome) :
    (do for arg in args do
          if arg.form == .keyword then checkKeyword ask file params arg : EvalM Unit) =
      checkTypes ask file (keywordTakers params args) := by
  induction args with
  | nil => rfl
  | cons arg args ih =>
    have hrest := ih fun arg' h => htaken arg' (List.mem_cons_of_mem _ h)
    by_cases hform : arg.form = .keyword
    · obtain ⟨name, hname, htaker⟩ := htaken arg List.mem_cons_self hform
      obtain ⟨p, hp⟩ := Option.isSome_iff_exists.mp htaker
      have hcheck : checkKeyword ask file params arg = checkArgument ask file arg p := by
        rw [keywordTaker?] at hp
        rw [checkKeyword, hname]
        cases hnamed : named? params name with
        | some found => simp_all
        | none => cases hkw : params.find? (·.kind == .kwArgs) <;> simp_all
      have htakers :
          keywordTakers params (arg :: args) = (arg, p) :: keywordTakers params args := by
        simp [keywordTakers, hform, hname, hp]
      rw [htakers, checkTypes_cons, ← hrest]
      simp [hform, hcheck]
    · have htakers : keywordTakers params (arg :: args) = keywordTakers params args := by
        simp [keywordTakers, hform]
      rw [htakers, ← hrest]
      simp [hform]

/-! ## Calls that bind -/

/-- An argument that is written as such, not taken out of a sequence or a mapping. -/
def Argument.IsWritten (arg : Argument) : Prop :=
  arg.form = .positional ∨ arg.form = .keyword ∧ arg.name.isSome

instance (arg : Argument) : Decidable arg.IsWritten :=
  inferInstanceAs (Decidable (arg.form = .positional ∨ arg.form = .keyword ∧ arg.name.isSome))

/-- How many arguments are passed by position. -/
def positionalCount (args : List Argument) : Nat := args.countP (·.form == .positional)

/-- The names of the arguments that are passed by keyword. -/
def keywordNames (args : List Argument) : List String :=
  (args.filter (·.form == .keyword)).filterMap (·.name)

private theorem isUnpacked_eq_false {args : List Argument}
    (hwritten : ∀ arg ∈ args, arg.IsWritten) :
    isUnpacked args = false := by
  simp only [isUnpacked, List.any_eq_false, Bool.or_eq_true, beq_iff_eq]
  intro arg harg
  obtain h | ⟨h, -⟩ := hwritten arg harg <;> simp [h]

section Binding

variable {fs : List Formal} {params : List Param} {args : List Argument} {i : Nat}

private theorem exists_keywordTaker (hmatch : List.Forall₂ Formal.Matches fs params)
    (hbinds : Binds fs n keywords) {name : String} (hname : name ∈ keywords) :
    (keywordTaker? params name).isSome := by
  rw [keywordTaker?, Option.isSome_or, Bool.or_eq_true]
  obtain ⟨f, hf, htakes, rfl, -⟩ | ⟨-, f, hf, hkind⟩ := hbinds.taken name hname
  · obtain ⟨p, hp, hfp⟩ := mem_params_of_mem hmatch hf
    left
    have hp' : takesName p = true := by
      refine (takesName_iff hfp).mpr ?_
      revert htakes
      cases f.kind <;> decide
    rw [Option.isSome_map, named?, List.find?_isSome]
    obtain ⟨i, hi, rfl⟩ := List.getElem_of_mem hp
    exact ⟨(params[i], i), List.mem_zipIdx_iff_getElem?.mpr (List.getElem?_eq_getElem hi),
      by simp [hfp.name, hp']⟩
  · right
    rw [← Option.not_isNone, Bool.not_eq_true', Bool.eq_false_iff, ne_eq, isNone_kwArgs hmatch]
    exact fun h => h f hf hkind

private theorem map_name_eq (hmatch : List.Forall₂ Formal.Matches fs params) :
    params.map (·.name) = fs.map (·.name) := by
  induction hmatch with
  | nil => rfl
  | cons h _ ih => rw [List.map_cons, List.map_cons, h.name, ih]

private theorem exists_formal (hmatch : List.Forall₂ Formal.Matches fs params)
    (hp : params[i]? = some p) :
    ∃ f, fs[i]? = some f ∧ f.Matches p := by
  induction hmatch generalizing i with
  | nil => simp at hp
  | cons h _ ih =>
    cases i with
    | zero =>
      obtain rfl : _ = p := by simpa using hp
      exact ⟨_, by simp, h⟩
    | succ i => simpa using ih (by simpa using hp)

private theorem place_mem_take (hnodup : fs.Nodup) (hi : fs[i]? = some f)
    (hf : f ∈ filledByPosition fs n) :
    i ∈ (((fs.zipIdx).filter (·.1.kind.isPositional)).map (·.2)).take n := by
  have hfilter : fs.filter (·.kind.isPositional) =
      ((fs.zipIdx).filter (·.1.kind.isPositional)).map (·.1) := by
    conv_lhs => rw [← List.zipIdx_map_fst 0 fs, List.filter_map]
    rfl
  rw [filledByPosition, hfilter, ← List.map_take, List.mem_map] at hf
  obtain ⟨⟨g, j⟩, hmem, rfl⟩ := hf
  have hj : fs[j]? = some g :=
    List.mem_zipIdx_iff_getElem?.mp (List.mem_of_mem_filter (List.mem_of_mem_take hmem))
  obtain ⟨hlt, -⟩ := List.getElem?_eq_some_iff.mp hi
  obtain rfl : i = j := (List.getElem?_inj hlt hnodup).mp (hi.trans hj.symm)
  rw [← List.map_take]
  exact List.mem_map_of_mem hmem

private theorem isMissing_eq_false (hmatch : List.Forall₂ Formal.Matches fs params)
    (hdistinct : (fs.map (·.name)).Nodup)
    (hbinds : Binds fs (positionalCount args) (keywordNames args)) :
    isMissing params args = false := by
  rw [isMissing, List.any_eq_false]
  rintro ⟨p, i⟩ hmem hmissing
  rw [Bool.and_eq_true, Bool.and_eq_true, Bool.not_eq_true', Bool.not_eq_true'] at hmissing
  obtain ⟨⟨htakes, hdefault⟩, hfilled⟩ := hmissing
  rw [Bool.eq_false_iff, ne_eq, List.contains_iff_mem, filledPlaces, List.mem_append, not_or]
    at hfilled
  have hp : params[i]? = some p := List.mem_zipIdx_iff_getElem?.mp hmem
  obtain ⟨f, hf, hfp⟩ := exists_formal hmatch hp
  obtain hpos | ⟨-, hkeyword⟩ := hbinds.filled f (List.mem_of_getElem? hf)
    ((takesName_iff hfp).mp htakes) (hfp.hasDefault.symm.trans hdefault)
  · refine hfilled.1 ?_
    rw [positionalPlaces hmatch, ← List.countP_eq_length_filter]
    exact place_mem_take hdistinct.of_map hf hpos
  · refine hfilled.2 ?_
    obtain ⟨arg, harg, hname⟩ := List.mem_filterMap.mp hkeyword
    have hsome : (named? params f.name).isSome := by
      rw [named?, List.find?_isSome]
      exact ⟨(p, i), hmem, by simp [hfp.name, htakes]⟩
    obtain ⟨⟨q, j⟩, hq⟩ := Option.isSome_iff_exists.mp hsome
    have hqname : q.name = f.name := by
      have := List.find?_some hq
      simp only [Bool.and_eq_true, beq_iff_eq] at this
      exact this.1
    have hj : params[j]? = some q := List.mem_zipIdx_iff_getElem?.mp (List.mem_of_find?_eq_some hq)
    -- the parameter found by its name is the one that was to be filled
    obtain rfl : i = j := by
      have hnames : (params.map (·.name)).Nodup := map_name_eq hmatch ▸ hdistinct
      refine (List.getElem?_inj ?_ hnames).mp ?_
      · rw [List.length_map]
        exact (List.getElem?_eq_some_iff.mp hp).1
      · rw [List.getElem?_map, List.getElem?_map, hp, hj, Option.map_some, Option.map_some,
          hfp.name, hqname]
    exact List.mem_filterMap.mpr ⟨arg, harg, by rw [hname, Option.bind_some, hq]; rfl⟩

private theorem length_positional (hmatch : List.Forall₂ Formal.Matches fs params) :
    (params.filter (·.kind == .positional)).length = (fs.filter (·.kind.isPositional)).length := by
  induction hmatch with
  | nil => rfl
  | cons h _ ih =>
    rw [List.filter_cons, List.filter_cons, kind_beq_positional h]
    split <;> simp [ih]

private theorem checkArguments_eq (ask : Ask) (file : FileId) (site : NodeId)
    (hmatch : List.Forall₂ Formal.Matches fs params) (hdistinct : (fs.map (·.name)).Nodup)
    (hwritten : ∀ arg ∈ args, arg.IsWritten)
    (hbinds : Binds fs (positionalCount args) (keywordNames args)) :
    checkArguments ask file site params args = checkTypes ask file (takers params args) := by
  have hroom : ((params.find? (·.kind == .varArgs)).isNone &&
      decide ((params.filter (·.kind == .positional)).length <
        (args.filter (·.form == .positional)).length)) = false := by
    rw [Bool.and_eq_false_iff, decide_eq_false_iff_not, Nat.not_lt, length_positional hmatch,
      ← List.countP_eq_length_filter]
    obtain hle | ⟨f, hf, hkind⟩ := hbinds.room
    · exact .inr hle
    · left
      rw [Bool.eq_false_iff, ne_eq, isNone_varArgs hmatch]
      exact fun h => h f hf hkind
  have htaken : ∀ arg ∈ args, arg.form = .keyword →
      ∃ name, arg.name = some name ∧ (keywordTaker? params name).isSome := by
    intro arg harg hform
    obtain hpos | ⟨-, hname⟩ := hwritten arg harg
    · rw [hpos] at hform
      cases hform
    · obtain ⟨name, hname⟩ := Option.isSome_iff_exists.mp hname
      refine ⟨name, hname, exists_keywordTaker hmatch hbinds ?_⟩
      exact List.mem_filterMap.mpr ⟨arg, List.mem_filter.mpr ⟨harg, by simp [hform]⟩, hname⟩
  have hpositional : checkPositional ask file (params.find? (·.kind == .varArgs))
      (params.filter (·.kind == .positional)) (args.filter (·.form == .positional)) =
        checkTypes ask file (positionalTakers params args) :=
    checkPositional_eq ask file _ _ _ _ (Nat.le_refl _)
  rw [takers, checkTypes_append, ← hpositional, ← checkKeywords_eq ask file params args htaken,
    checkArguments]
  simp [hroom, isUnpacked_eq_false hwritten, isMissing_eq_false hmatch hdistinct hbinds]

end Binding

/-! ## Calls on a receiver -/

/-- The receiver of a call goes into `*args`. -/
def restTakesReceiver (fs : List Formal) : Bool := fs.head?.any (·.kind == .varArgs)

private theorem Binds.tail {fs : List Formal} (hwf : WellFormed (f :: fs))
    (hf : f.kind.isPositional = true)
    (h : Binds (f :: fs) (n + 1) keywords) : Binds fs n keywords := by
  have hne {g : Formal} (hg : g ∈ fs) : g ≠ f := by
    rintro rfl
    exact (List.nodup_cons.mp (hwf.distinct.of_map _)).1 hg
  have hfilled : filledByPosition (f :: fs) (n + 1) = f :: filledByPosition fs n := by
    simp [filledByPosition, hf]
  have hkind {k : FormalKind} (hk : k.isPositional = false) : f.kind ≠ k := by
    rintro rfl
    rw [hf] at hk
    cases hk
  refine ⟨h.once, ?_, ?_, ?_⟩
  · obtain hle | ⟨g, hg, hrest⟩ := h.room
    · left
      simp only [List.filter_cons, hf, if_true, List.length_cons] at hle
      omega
    · obtain rfl | hg := List.mem_cons.mp hg
      · exact absurd hrest (hkind rfl)
      · exact .inr ⟨g, hg, hrest⟩
  · intro keyword hkeyword
    obtain ⟨g, hg, htakes, hname, hnot⟩ | ⟨hnone, g, hg, hrest⟩ := h.taken keyword hkeyword
    · rw [hfilled, List.mem_cons, not_or] at hnot
      exact .inl ⟨g, (List.mem_cons.mp hg).resolve_left hnot.1, htakes, hname, hnot.2⟩
    · obtain rfl | hg := List.mem_cons.mp hg
      · exact absurd hrest (hkind rfl)
      · exact .inr ⟨fun g hg => hnone g (List.mem_cons_of_mem _ hg), g, hg, hrest⟩
  · intro g hg hvariadic hdefault
    obtain hpos | hkeyword := h.filled g (List.mem_cons_of_mem _ hg) hvariadic hdefault
    · rw [hfilled] at hpos
      exact .inl ((List.mem_cons.mp hpos).resolve_left (hne hg))
    · exact .inr hkeyword

private theorem Binds.behindRest {fs : List Formal} (hwf : WellFormed (f :: fs))
    (hf : f.kind.isPositional = false) (h : Binds (f :: fs) (n + 1) keywords) :
    f.kind = .varArgs ∧ (∀ g ∈ fs, g.kind.isPositional = false ∧ g.kind ≠ .varArgs) ∧
      Binds fs 0 keywords := by
  obtain ⟨hfirst, -⟩ := List.pairwise_cons.mp hwf.ordered
  have hnone : ∀ g ∈ f :: fs, g.kind.isPositional = false := by
    intro g hg
    obtain rfl | hg := List.mem_cons.mp hg
    · exact hf
    · have hrank := (hfirst g hg).1
      revert hf hrank
      cases f.kind <;> cases g.kind <;> decide
  have hfilter : (f :: fs).filter (·.kind.isPositional) = [] :=
    List.filter_eq_nil_iff.mpr fun g hg => by simp [hnone g hg]
  have hempty (m : Nat) : filledByPosition (f :: fs) m = [] := by
    rw [filledByPosition, hfilter, List.take_nil]
  obtain ⟨g, hg, hrest⟩ : ∃ g ∈ f :: fs, g.kind = .varArgs := by
    refine h.room.resolve_left ?_
    rw [hfilter]
    simp
  have hkind : f.kind = .varArgs := by
    obtain rfl | hg := List.mem_cons.mp hg
    · exact hrest
    · have hrank := (hfirst g hg).1
      rw [hrest] at hrank
      revert hf hrank
      cases f.kind <;> decide
  refine ⟨hkind, fun g hg => ⟨hnone g (List.mem_cons_of_mem _ hg), fun hg' => ?_⟩, h.once, ?_, ?_, ?_⟩
  · have := (hfirst g hg).2 (hkind.trans hg'.symm)
    rw [hkind] at this
    cases this
  · exact .inl (Nat.zero_le _)
  · intro keyword hkeyword
    obtain ⟨g, hg, htakes, hname, -⟩ | ⟨hnone, g, hg, hkw⟩ := h.taken keyword hkeyword
    · obtain rfl | hg := List.mem_cons.mp hg
      · rw [hkind] at htakes
        cases htakes
      · exact .inl ⟨g, hg, htakes, hname, by simp [filledByPosition]⟩
    · obtain rfl | hg := List.mem_cons.mp hg
      · rw [hkind] at hkw
        cases hkw
      · exact .inr ⟨fun g hg => hnone g (List.mem_cons_of_mem _ hg), g, hg, hkw⟩
  · intro g hg hvariadic hdefault
    obtain hpos | hkeyword := h.filled g (List.mem_cons_of_mem _ hg) hvariadic hdefault
    · rw [hempty] at hpos
      cases hpos
    · exact .inr hkeyword

section Receiver

variable {fs : List Formal} {params : List Param} {args : List Argument}

private theorem checkArguments_receiver (ask : Ask) (file : FileId) (site : NodeId)
    (hmatch : List.Forall₂ Formal.Matches fs params) (hwf : WellFormed fs)
    (hwritten : ∀ arg ∈ args, arg.IsWritten)
    (hbinds : Binds fs (positionalCount args + 1) (keywordNames args)) :
    checkArguments ask file site (params.drop 1) args =
      if restTakesReceiver fs = true ∧ 0 < positionalCount args then
        wrongCount file site 0 (positionalCount args)
      else checkTypes ask file (takers (params.drop 1) args) := by
  cases hmatch with
  | nil => simpa using hbinds.room
  | @cons f p fs params hfp hmatch =>
    have hdistinct : (fs.map (·.name)).Nodup := (List.nodup_cons.mp hwf.distinct).2
    cases hf : f.kind.isPositional with
    | true =>
      have hfirst : restTakesReceiver (f :: fs) = false := by
        revert hf
        cases hk : f.kind <;> simp [restTakesReceiver, hk, FormalKind.isPositional]
      rw [hfirst, if_neg (fun h => Bool.false_ne_true h.1)]
      exact checkArguments_eq ask file site hmatch hdistinct hwritten (hbinds.tail hwf hf)
    | false =>
      obtain ⟨hkind, hbehind, hzero⟩ := hbinds.behindRest hwf hf
      have hfirst : restTakesReceiver (f :: fs) = true := by simp [restTakesReceiver, hkind]
      rw [hfirst]
      obtain hnone | hsome := Nat.eq_zero_or_pos (positionalCount args)
      · rw [if_neg (fun h => by omega)]
        exact checkArguments_eq ask file site hmatch hdistinct hwritten (hnone ▸ hzero)
      · rw [if_pos ⟨rfl, hsome⟩]
        have hplaces : params.filter (·.kind == .positional) = [] := by
          rw [← List.length_eq_zero_iff, length_positional hmatch, List.length_eq_zero_iff,
            List.filter_eq_nil_iff]
          exact fun g hg => by simp [(hbehind g hg).1]
        have hrest : (params.find? (·.kind == .varArgs)).isNone = true :=
          (isNone_varArgs hmatch).mpr fun g hg => (hbehind g hg).2
        have hchecked : checkPositional ask file none [] (args.filter (·.form == .positional)) =
            pure () := by
          rw [checkPositional_eq ask file none [] _ _ (Nat.le_refl _)]
          simp [checkTypes]
        rw [positionalCount, List.countP_eq_length_filter] at hsome ⊢
        rw [List.drop_one, List.tail_cons, checkArguments]
        simp only [hplaces, Option.isNone_iff_eq_none.mp hrest, hchecked]
        simp [isUnpacked_eq_false hwritten, hsome]

end Receiver

/-! ## Calls of functions, methods and classes -/

/-- How a callee comes to take arguments by a signature: the flag says whether a receiver stands
before them, and the state and the computation are those behind the check. -/
inductive Called (ask : Ask) (st : EvalState) (s : Signature) :
    TypeId → Bool → EvalState → EvalM TypeId → Prop
  | function {callee : TypeId} {shape : ShapeId} :
      st.session.types.get? callee = some (.function shape) →
      st.session.types.shape? shape = some s →
      Called ask st s callee false st (functionResult ask s)
  | method {callee method receiver : TypeId} :
      st.session.types.get? callee = some (.boundMethod method receiver) →
      st.session.types.signature? method = some s →
      Called ask st s callee true st (functionResult ask s)
  /-- A declared class with an `__init__`. -/
  | construct {callee inst init method receiver : TypeId} {cls : DeclaredClass}
      {args : List TypeId} {st' : EvalState} :
      st.session.types.get? callee = some (.classObject inst) →
      st.session.types.parts? inst = some (.declared cls, args) →
      member? ask inst "__init__" st = (some init, st') →
      st'.session.types.get? init = some (.boundMethod method receiver) →
      st'.session.types.signature? method = some s →
      Called ask st s callee true st' (pure inst)

private theorem callUpTo_called {ask : Ask} {st st' : EvalState} {s : Signature} {callee : TypeId}
    {receiver : Bool} {result : EvalM TypeId} (hcalled : Called ask st s callee receiver st' result)
    (file : FileId) (site : NodeId) (args : List Argument) (fuel : Nat) :
    callUpTo ask file site args (fuel + 1) callee st =
      (do
        checkArguments ask file site (s.params.drop receiver.toNat) args
        result : EvalM TypeId) st' := by
  have htypes (st : EvalState) : types st = (st.session.types, st) := rfl
  rw [callUpTo, bind_of_eq (htypes st)]
  cases hcalled with
  | function hget hs =>
    simp only [hget, hs, Bool.toNat_false, List.drop_zero]
  | method hget hs =>
    simp only [hget, hs, Bool.toNat_true]
  | construct hget hparts hinit hmethod hs =>
    simp only [hget, construct]
    rw [bind_of_eq (htypes st)]
    simp only [hparts, constructDeclared]
    rw [bind_of_eq hinit]
    simp only
    rw [bind_of_eq (htypes st')]
    simp only [hmethod, hs, Bool.toNat_true]

/-- A call whose arguments bind to the parameters of the definition, behind the receiver where there
is one, is checked for types alone: no number of arguments and no keyword is reported. The exception
are calls on a receiver that goes into `*args`, with arguments by position behind it. -/
theorem callUpTo_of_binds {ask ask₀ : Ask} {st st' st₀ : EvalState} {file₀ : FileId} {s : Signature}
    {callee : TypeId} {receiver : Bool} {result : EvalM TypeId} {a : Arena} {nodes : List NodeId}
    (file : FileId) (site : NodeId) (args : List Argument) (fuel : Nat)
    (hcalled : Called ask st s callee receiver st' result)
    (hparams : s.params = (paramTypes ask₀ file₀ a false nodes st₀).1)
    (hwf : WellFormed (formals a false nodes)) (hwritten : ∀ arg ∈ args, arg.IsWritten)
    (hbinds : Binds (formals a false nodes) (positionalCount args + receiver.toNat)
      (keywordNames args)) :
    callUpTo ask file site args (fuel + 1) callee st =
      (do
        if receiver = true ∧ restTakesReceiver (formals a false nodes) = true ∧
            0 < positionalCount args then
          wrongCount file site 0 (positionalCount args)
        else checkTypes ask file (takers (s.params.drop receiver.toNat) args)
        result : EvalM TypeId) st' := by
  have hmatch : List.Forall₂ Formal.Matches (formals a false nodes) s.params :=
    hparams ▸ matches_paramTypes ask₀ file₀ a nodes false st₀
  rw [callUpTo_called hcalled]
  cases receiver with
  | false =>
    rw [Bool.toNat_false, List.drop_zero,
      checkArguments_eq ask file site hmatch hwf.distinct hwritten hbinds]
    simp
  | true =>
    rw [Bool.toNat_true, checkArguments_receiver ask file site hmatch hwf hwritten hbinds]
    simp only [true_and]
    split <;> rfl

/-- Of two methods `n(self, a, /, b=1, *rest, k, **others)` and `m(*args)`, a call
`c.n(1, 2, 3, k=4)` is checked for types alone, and for a call `c.m(1)` the number of arguments is
reported. -/
theorem callUpTo_of_binds_rest :
    let a := (parse ("def m(*args):\n    pass\n" ++
      "def n(self, a, /, b=1, *rest, k, **others):\n    pass\n")).tree.arena
    let ask : Ask := fun _ => pure .unknown
    let m : Signature := ⟨"m", (paramTypes ask 0 a false [2] default).1, none, none⟩
    let n : Signature :=
      ⟨"n", (paramTypes ask 0 a false [7, 9, 10, 13, 15, 17, 19] default).1, none, none⟩
    let table : TypeTable :=
      { types := TypeTable.initial.types ++
          #[.function 0, .boundMethod 12 .int, .function 1, .boundMethod 14 .int]
        shapes := #[m, n] }
    let st : EvalState := { session := { Session.new {} (.ofList []) [] with types := table } }
    let one : Argument := ⟨.positional, none, .int, 0⟩
    let four : Argument := ⟨.keyword, some "k", .int, 0⟩
    (Binds (formals a false [2]) (1 + 1) [] ∧
      callUpTo ask 0 0 [one] 1 13 st = (do wrongCount 0 0 0 1; functionResult ask m) st) ∧
    Binds (formals a false [7, 9, 10, 13, 15, 17, 19]) (3 + 1) ["k"] ∧
      callUpTo ask 0 0 [one, one, one, four] 1 15 st =
        (do
          checkTypes ask 0 (takers (n.params.drop 1) [one, one, one, four])
          functionResult ask n) st := by
  intro a ask m n table st one four
  obtain ⟨hm, hn⟩ : formals a false [2] = [⟨"args", .varArgs, false⟩] ∧
      formals a false [7, 9, 10, 13, 15, 17, 19] = [⟨"self", .positionalOnly, false⟩,
        ⟨"a", .positionalOnly, false⟩, ⟨"b", .standard, true⟩, ⟨"rest", .varArgs, false⟩,
        ⟨"k", .keywordOnly, false⟩, ⟨"others", .kwArgs, false⟩] := by
    decide +kernel
  clear_value a
  have hmcall : Called ask st m 13 true st (functionResult ask m) := .method rfl rfl
  have hncall : Called ask st n 15 true st (functionResult ask n) := .method rfl rfl
  have hmbinds : Binds (formals a false [2]) (1 + 1) [] := by rw [hm]; decide
  have hnbinds : Binds (formals a false [7, 9, 10, 13, 15, 17, 19]) (3 + 1) ["k"] := by
    rw [hn]; decide
  refine ⟨⟨hmbinds, ?_⟩, hnbinds, ?_⟩
  · have h := callUpTo_of_binds 0 0 [one] 0 hmcall rfl
      (by rw [hm]; exact ⟨by decide, by decide⟩) (by decide) hmbinds
    rw [if_pos (by rw [hm]; decide)] at h
    exact h
  · have h := callUpTo_of_binds 0 0 [one, one, one, four] 0 hncall rfl
      (by rw [hn]; exact ⟨by decide, by decide⟩) (by decide) hnbinds
    rw [if_neg (by rw [hn]; decide)] at h
    exact h

end LiveCheck.Evaluation
