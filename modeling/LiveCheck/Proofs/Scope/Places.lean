import LiveCheck.Proofs.Parsing.BuildingStatements
import Mathlib.Data.List.Nodup

/-!
# Places of code

Where a piece of code stands decides in which scope its names are, whether it may be skipped, and
where a jump leads. All of this can be read off the way from a node up to the definition around it:
the module, class, function or lambda. Decorators, bases, annotations, default values and the name of
a definition stand outside of it, its parameters and its body inside.
-/

namespace LiveCheck

/-- What it means for code to stand in one of the places that a node has for its children. -/
inductive Role
  /-- It is reached whenever the node is. -/
  | plain
  /-- It may be skipped. -/
  | branch
  /-- It may be skipped or repeated. -/
  | loop
  /-- It names a parameter, and so it is inside the definition that has the parameter. -/
  | parameter
  /-- The node is a definition, and this is inside. -/
  | inside
deriving DecidableEq

/-- Nodes in places of one role. -/
def Role.all (role : Role) (is : List NodeId) : List (Role × NodeId) := is.map (role, ·)

@[simp] theorem Role.map_snd_all (role : Role) (is : List NodeId) :
    (role.all is).map Prod.snd = is := by
  simp [all, Function.comp_def]

@[simp] theorem Role.mem_all {role role' : Role} {is : List NodeId} {c : NodeId} :
    (role, c) ∈ role'.all is ↔ role = role' ∧ c ∈ is := by
  simp [all, eq_comm, and_comm]

namespace NodeData

/-- The children of a node with their roles. -/
def roles : NodeData → List (Role × NodeId)
  | root body => Role.inside.all body
  | ifStmt test body orelse => Role.plain.all [test] ++ Role.branch.all (body ++ orelse)
  | whileLoop test body orelse =>
    Role.plain.all [test] ++ Role.loop.all body ++ Role.branch.all orelse
  | forLoop target iter body orelse =>
    Role.branch.all [target] ++ Role.plain.all [iter] ++ Role.loop.all body ++
      Role.branch.all orelse
  | tryStmt body handlers orelse finalbody =>
    Role.branch.all body ++ Role.plain.all handlers ++ Role.branch.all orelse ++
      Role.plain.all finalbody
  | handler type caught body =>
    Role.plain.all type.toList ++ Role.branch.all (caught.toList ++ body)
  | functionDef decorators defined params returns body =>
    Role.plain.all (decorators ++ defined :: (params ++ returns.toList)) ++ Role.inside.all body
  | parameter _ declared hint default =>
    Role.parameter.all declared.toList ++ Role.plain.all (hint.toList ++ default.toList)
  | classDef decorators defined bases body =>
    Role.plain.all (decorators ++ defined :: bases) ++ Role.inside.all body
  | lambda params body => Role.plain.all params ++ Role.inside.all [body]
  | data => Role.plain.all data.children

private theorem map_snd_roles (data : NodeData) : data.roles.map Prod.snd = data.children := by
  cases data <;> simp [roles, children]

/-- The role of a child. -/
def role (data : NodeData) (c : NodeId) : Role :=
  ((data.roles.find? (·.2 == c)).map (·.1)).getD .plain

private theorem role_of_mem {data : NodeData} {role : Role} {c : NodeId}
    (hnodup : data.children.Nodup)
    (h : (role, c) ∈ data.roles) : data.role c = role := by
  rw [← map_snd_roles] at hnodup
  rcases hfind : data.roles.find? (·.2 == c) with - | e
  · exact absurd (beq_iff_eq.mpr rfl) (List.find?_eq_none.mp hfind _ h)
  · have he : e.2 = c := beq_iff_eq.mp (List.find?_some (p := fun e : Role × NodeId => e.2 == c) hfind)
    have heq := List.inj_on_of_nodup_map hnodup (List.mem_of_find?_eq_some hfind) h he
    rw [NodeData.role, hfind, heq]
    rfl

theorem mem_roles_of_role {data : NodeData} {role : Role} {c : NodeId} (h : data.role c = role)
    (hne : role ≠ .plain) : (role, c) ∈ data.roles := by
  rw [NodeData.role] at h
  rcases hfind : data.roles.find? (·.2 == c) with - | ⟨role', d⟩
  · rw [hfind] at h
    exact absurd h.symm hne
  · rw [hfind] at h
    obtain rfl : role' = role := h
    have hd : d = c := beq_iff_eq.mp (List.find?_some (p := fun e : Role × NodeId => e.2 == c) hfind)
    exact hd ▸ List.mem_of_find?_eq_some hfind

/-- The names among the children that stand in no scope: attributes, keywords of arguments, what
`global` and `nonlocal` are about, and the parts of the path of an import that it does not bind. -/
def unscoped : NodeData → List NodeId
  | member _ attr => [attr]
  | argument _ key _ => key.toList
  | globalStmt names | nonlocalStmt names => names
  | importFrom path .. => path
  | importAlias path asname => if asname.isSome then path else path.tail
  | _ => []

/-- The parameters of a definition. -/
def params : NodeData → List NodeId
  | functionDef _ _ params _ _ | lambda params _ => params
  | _ => []

end NodeData

/-- A place in the code. -/
structure Place where
  /-- The innermost definition around it. -/
  definition : NodeId
  /-- The branches and loops of this definition around it, the innermost first. -/
  crossed : List Role
deriving DecidableEq

namespace Place

/-- The place of code in a branch or loop at a place. -/
def through (place : Place) (role : Role) : Place := { place with crossed := role :: place.crossed }

/-- Whether the definition may be run without the code. -/
def isSkippable (place : Place) : Bool := !place.crossed.isEmpty

/-- Whether the code is in the body of a loop. -/
def isLooped (place : Place) : Bool := place.crossed.contains .loop

end Place

namespace Arena

/-- The role of a node in its parent. -/
def role (a : Arena) (parent c : NodeId) : Role := (a.data? parent).elim .plain (·.role c)

/-- The place of the first of some nodes, of which each is the parent of the one before it. -/
def placeAlong? (a : Arena) : List NodeId → Option Place
  | c :: parent :: above =>
    match a.role parent c with
    | .plain => a.placeAlong? (parent :: above)
    | .inside => some ⟨parent, []⟩
    | .parameter => above.head?.map (⟨·, []⟩)
    | role => (a.placeAlong? (parent :: above)).map (·.through role)
  | _ => none

/-- The place of a node; the root has none. -/
def place? (a : Arena) (i : NodeId) : Option Place := a.placeAlong? (a.ancestors i)

/-- The module, class, function or lambda around a node. -/
def definitionAround? (a : Arena) (i : NodeId) : Option NodeId := (a.place? i).map (·.definition)

/-- The name of a parameter. -/
def parameterText? (a : Arena) (param : NodeId) : Option String :=
  match a.data? param with
  | some (.parameter _ declared _ _) => a.optionalName? declared
  | _ => none

/-- The parameters before one of the parameters of a definition. -/
def earlierParameters (a : Arena) (param : NodeId) : List NodeId :=
  (((a.parent? param).bind a.data?).elim [] NodeData.params).takeWhile (· != param)

/-- Whether the node is the name of a parameter and an earlier parameter has the same name. -/
def repeatsParameter (a : Arena) (i : NodeId) : Bool :=
  match a.parent? i, a.nameText? i with
  | some param, some name =>
    a.role param i == .parameter && (a.earlierParameters param).any (a.parameterText? · == some name)
  | _, _ => false

/-- Whether the node is a name that stands in a scope. -/
def isScoped (a : Arena) (i : NodeId) : Bool :=
  a.isName i && !a.repeatsParameter i &&
    !(((a.parent? i).bind a.data?).elim [] NodeData.unscoped).contains i

end Arena

/-- What is known of the nodes that a parse builds. -/
structure Arena.Grown (a : Arena) (root : NodeId) : Prop where
  module : ∃ body, a.data? root = some (.root body)
  fits : ∀ i data, a.data? i = some data → a.Fits data
  nodup : ∀ p, a.Reachable root p → (a.children p).Nodup
  child : ∀ p, a.Reachable root p → ∀ c ∈ a.children p,
    c < p ∧ a.parent? c = some p ∧ a.ancestors c = c :: a.ancestors p
  top : a.ancestors root = [root]

theorem grown_parse (text : String) :
    (parse text).tree.arena.Grown (parse text).tree.root := by
  obtain ⟨ns, hforest, hnodup, hroot, -⟩ := accounted_parse text
  obtain ⟨hbuilt, -⟩ := built_parse text
  refine ⟨hbuilt.module, hbuilt.fits, fun p hp => ?_, fun p hp c hc => ?_, hforest.ancestors_root hroot⟩
  · exact hnodup.sublist (hforest.children (hforest.reachable_iff.mp hp)).2
  · have hp := hforest.reachable_iff.mp hp
    obtain ⟨hlt, hparent, -⟩ := (hforest.children hp).1 c hc
    exact ⟨hlt, hparent, hforest.ancestors_child hroot hp hc⟩

theorem mem_walk_parse {text : String} {n : NodeId} :
    n ∈ (parse text).tree.arena.walk (parse text).tree.root ↔
      (parse text).tree.arena.Reachable (parse text).tree.root n := by
  obtain ⟨ns, hforest, -⟩ := accounted_parse text
  rw [hforest.walk, hforest.reachable_iff]

theorem nodup_walk_parse (text : String) :
    ((parse text).tree.arena.walk (parse text).tree.root).Nodup := by
  obtain ⟨ns, hforest, hnodup, -⟩ := accounted_parse text
  rwa [hforest.walk]

namespace Arena.Grown

variable {a : Arena} {root p c : NodeId} {data : NodeData} {role : Role} {place : Place}

/-- What is reached is a node of the arena. -/
theorem lt_size (h : a.Grown root) (hp : a.Reachable root p) : p < a.size := by
  cases hp with
  | root =>
    obtain ⟨body, hdata⟩ := h.module
    exact lt_size_of_data? hdata
  | child _ hchild =>
    obtain ⟨data, hdata, hc⟩ := exists_of_mem_children hchild
    exact (h.fits _ data hdata).lt_size hc

theorem exists_ancestors (h : a.Grown root) (hp : a.Reachable root p) :
    ∃ above, a.ancestors p = p :: above := by
  cases hp with
  | root => exact ⟨[], h.top⟩
  | child hp hchild => exact ⟨_, (h.child _ hp _ hchild).2.2⟩

theorem mem_children_of_roles (hdata : a.data? p = some data) (hc : (role, c) ∈ data.roles) :
    c ∈ a.children p := by
  rw [children_of_data? hdata, ← NodeData.map_snd_roles]
  exact List.mem_map_of_mem hc

variable (h : a.Grown root) (hp : a.Reachable root p) (hdata : a.data? p = some data)
include h hp hdata

theorem nodup_children : data.children.Nodup := by
  have hnodup := h.nodup p hp
  rwa [children_of_data? hdata] at hnodup

theorem role_eq (hc : (role, c) ∈ data.roles) : a.role p c = role := by
  rw [Arena.role, hdata]
  exact NodeData.role_of_mem (h.nodup_children hp hdata) hc

/-- The way up from a child goes through its parent. -/
theorem place?_eq (hc : (role, c) ∈ data.roles) : a.place? c =
    match role with
    | .plain => a.place? p
    | .inside => some ⟨p, []⟩
    | .parameter => (a.ancestors p).tail.head?.map (⟨·, []⟩)
    | role => (a.place? p).map (·.through role) := by
  obtain ⟨above, habove⟩ := h.exists_ancestors hp
  have hchild := (h.child p hp c (mem_children_of_roles hdata hc)).2.2
  rw [place?, hchild, habove, placeAlong?, h.role_eq hp hdata hc, place?, habove]
  cases role <;> rfl

theorem place?_plain (hc : (.plain, c) ∈ data.roles) : a.place? c = a.place? p :=
  h.place?_eq hp hdata hc

theorem place?_inside (hc : (.inside, c) ∈ data.roles) : a.place? c = some ⟨p, []⟩ :=
  h.place?_eq hp hdata hc

theorem place?_branch (hplace : a.place? p = some place) (hc : (.branch, c) ∈ data.roles) :
    a.place? c = some (place.through .branch) := by
  rw [h.place?_eq hp hdata hc, hplace]
  rfl

theorem place?_loop (hplace : a.place? p = some place) (hc : (.loop, c) ∈ data.roles) :
    a.place? c = some (place.through .loop) := by
  rw [h.place?_eq hp hdata hc, hplace]
  rfl

end Arena.Grown
end LiveCheck
