import LiveCheck.Proofs.FirstOccurrences
import LiveCheck.Proofs.Hints.Hint
import LiveCheck.Proofs.Evaluation.Engine

/-!
# What is known about type expressions

A known result for the node of a type expression is right if it stands for what the type expression
means, or comes to mean. As long as the module does not give the names of built-in classes another
meaning, all that evaluations keep is right. A result may be wrong if a full stack or a computation
that has not ended was met on the way, but such a result is not kept.
-/

/-!
## Values of type expressions

A type expression evaluates to a class, to `None` or to `...`. Type arguments in brackets and bars
make such values from others, and what they stand for is what the type expression means.
-/

namespace LiveCheck

open Evaluation

namespace TypeTable

variable {t t' : TypeTable} {form left right id i j : TypeId} {ids : List TypeId}
  {cls : BuiltinClass}

/-! ### Earlier tables -/

theorem Joins.of_extends (hj : t'.Joins i j) (h : t.Extends t') (hi : i < t.size)
    (hlt : j < t.size) : t.Joins i j := by
  have hmembers := h.members hi
  refine ⟨h.members hlt ▸ hj.single, hmembers ▸ hj.nonempty, hmembers ▸ hj.nodup, hmembers ▸ hj.few,
    hmembers ▸ hj.plain⟩

/-! ### What values stand for -/

private theorem IsForm.get? (hf : t.IsForm form id) (hbase : initial.Extends t) :
    t.get? form = some (.classObject id) ∨ form = id ∧
      (id = .none ∧ t.get? form = some (.inst (.builtin .none) []) ∨
        id = .ellipsis ∧ t.get? form = some (.inst (.builtin .ellipsis) [])) := by
  rcases hf with hf | ⟨rfl, rfl | rfl⟩
  · exact .inl (find?_eq_some_iff.mp hf).1
  · exact .inr ⟨rfl, .inl ⟨rfl, (find?_eq_some_iff.mp (find?_none hbase)).1⟩⟩
  · exact .inr ⟨rfl, .inr ⟨rfl, (find?_eq_some_iff.mp (find?_ellipsis hbase)).1⟩⟩

/-- What a value stands for is found. -/
theorem IsForm.formType_eq (hf : t.IsForm form id) (hbase : initial.Extends t) :
    formType t form = id := by
  rcases hf.get? hbase with hd | ⟨rfl, ⟨rfl, hd⟩ | ⟨rfl, hd⟩⟩
  · rw [formType, TypeTable.inner?, hd]
  · rw [formType, TypeTable.inner?, hd]
    rfl
  · rw [formType, TypeTable.inner?, hd]
    rfl

/-- The value of a type expression is neither unknown nor unchecked, nothing that is being computed
and no instance of a declared class. -/
theorem IsForm.settled (hf : t.IsForm form id) (hbase : initial.Extends t) :
    form ∉ [TypeId.unknown, .never, .any] ∧ t.members form = [form] ∧
      t.recursiveDecl? form = none ∧ t.declaredClass? form = none := by
  have hunknown : t.get? .unknown = some .unknown := hbase.get? rfl
  have hnever : t.get? .never = some .never := hbase.get? rfl
  have hany : t.get? .any = some .any := hbase.get? rfl
  have hrest (hd : ∃ inner, t.get? form = some (.classObject inner) ∨
      ∃ cls, t.get? form = some (.inst (.builtin cls) [])) : form ∉ [TypeId.unknown, .never, .any] ∧
        t.members form = [form] ∧ t.recursiveDecl? form = none ∧ t.declaredClass? form = none := by
    obtain ⟨inner, hd | ⟨cls, hd⟩⟩ := hd
    all_goals
      refine ⟨fun hmem => ?_, by rw [TypeTable.members, hd], by rw [recursiveDecl?, hd],
        by rw [declaredClass?, hd]⟩
      simp only [List.mem_cons, List.not_mem_nil, or_false] at hmem
      rcases hmem with rfl | rfl | rfl <;> simp_all
  rcases hf.get? hbase with hd | ⟨-, ⟨-, hd⟩ | ⟨-, hd⟩⟩
  · exact hrest ⟨id, .inl hd⟩
  · exact hrest ⟨id, .inr ⟨_, hd⟩⟩
  · exact hrest ⟨id, .inr ⟨_, hd⟩⟩

/-- A value that stands for the instances of a class with a name is the class. -/
theorem IsForm.inner? (hf : t.IsForm form id) (hbase : initial.Extends t) (hnone : cls ≠ .none)
    (hellipsis : cls ≠ .ellipsis) (hid : t.get? id = some (.inst (.builtin cls) [])) :
    t.inner? form = some id := by
  rcases hf.get? hbase with hd | ⟨rfl, ⟨-, hd⟩ | ⟨-, hd⟩⟩
  · rw [TypeTable.inner?, hd]
  · rw [hid] at hd
    cases hd
    contradiction
  · rw [hid] at hd
    cases hd
    contradiction

/-! ### Making values -/

/-- The class of some instances is a value that stands for them. -/
theorem isForm_classObject (id : TypeId) (t : TypeTable) :
    (classObject id t).2.IsForm (classObject id t).1 id := .inl (find?_intern t _)

/-- The instances of a class with as many arguments as it takes. -/
theorem specialized_eq (h : cls.Takes ids.length) :
    specialized cls ids = intern (cls.applied ids) := by
  have hfull (n : Nat) (hn : cls.arity? = some n) :
      ids.take n ++ List.replicate (n - ids.length) .unknown = ids := by
    rcases h.arity with harity | harity
    · exact nomatch hn.symm.trans harity
    · obtain rfl := Option.some.inj (hn.symm.trans harity)
      simp
  have hplain (n : Nat) (hn : cls.arity? = some n) :
      builtin cls (ids.take n ++ List.replicate (n - ids.length) .unknown) =
        intern (.inst (.builtin cls) ids) := by rw [hfull n hn]; rfl
  cases cls with
  | type | tuple => rfl
  | none => exact absurd rfl h.none
  | ellipsis => exact absurd rfl h.ellipsis
  | _ => exact hplain _ rfl

private theorem union2_eq (hj : t.Joins i j) :
    union2 i j t = intern (.union (t.members i ++ [j])) t := by
  have hi := hj.plain i List.mem_cons_self
  have hj' := hj.plain j (by simp)
  simp only [List.mem_cons, List.not_mem_nil, or_false, not_or] at hi hj'
  have hne : i ≠ j := by
    rintro rfl
    have hnodup := hj.nodup
    rw [hj.single] at hnodup
    simp at hnodup
  have hunknown : [i, j].contains TypeId.unknown = false := by
    simp [Ne.symm hi.1, Ne.symm hj'.1]
  have hany : [i, j].contains TypeId.any = false := by
    simp [Ne.symm hi.2.2.1, Ne.symm hj'.2.2.1]
  have hflatten : t.flatten [i, j] = t.members i ++ [j] := by
    have hfilter : [i, j].filter (· != TypeId.never) = [i, j] := by simp [hi.2.1, hj'.2.1]
    rw [flatten, hfilter, List.flatMap_cons, List.flatMap_singleton, hj.single,
      eraseDups_of_nodup hj.nodup]
  -- there is a member already, so together there are two or more
  obtain ⟨first, second, rest, hall⟩ : ∃ first second rest,
      t.members i ++ [j] = first :: second :: rest := by
    obtain ⟨first, rest, hmembers⟩ := List.exists_cons_of_ne_nil hj.nonempty
    obtain ⟨second, rest', hrest⟩ := List.exists_cons_of_ne_nil (List.concat_ne_nil j rest)
    refine ⟨first, second, rest', ?_⟩
    rw [hmembers, List.cons_append, ← hrest]
  have hfew := hj.few
  rw [hall] at hfew
  rw [union2, if_neg hne, union, hunknown, hany, hflatten, hall]
  exact if_neg (Nat.not_lt_of_le hfew)

private theorem unionForm?_eq (hl : t.IsForm left i) (hr : t.IsForm right j) (hj : t.Joins i j)
    (hbase : initial.Extends t) : t.unionForm? left right = some (i, j) := by
  have hform {form id : TypeId} (hf : t.IsForm form id) (hid : id ≠ .ellipsis) :
      t.formOf? form = some id := by
    rcases hf.get? hbase with hd | ⟨rfl, ⟨rfl, hd⟩ | ⟨rfl, -⟩⟩
    · rw [formOf?, TypeTable.inner?, hd]
    · rw [formOf?, TypeTable.inner?, hd]
      rfl
    · contradiction
  have hi := hj.plain i List.mem_cons_self
  have hj' := hj.plain j (by simp)
  simp only [List.mem_cons, List.not_mem_nil, or_false, not_or] at hi hj'
  rw [unionForm?, hform hl hi.2.2.2, hform hr hj'.2.2.2]
  refine if_neg fun hboth => ?_
  -- `None | None` would be a union of a type with itself
  obtain ⟨rfl, rfl⟩ : left = .none ∧ right = .none := by simpa using hboth
  have hnone {id : TypeId} (hf : t.IsForm .none id) : id = .none := by
    have hd := (find?_eq_some_iff.mp (find?_none hbase)).1
    rcases hf.get? hbase with hd' | ⟨rfl, -⟩
    · rw [hd] at hd'
      exact nomatch hd'
    · rfl
  obtain rfl := hnone hl
  obtain rfl := hnone hr
  have hnodup := hj.nodup
  rw [hj.single] at hnodup
  simp at hnodup

/-- A bar between the values of two type expressions makes the class of the union. -/
theorem operation?_bitOr (hl : t.IsForm left i) (hr : t.IsForm right j) (hj : t.Joins i j)
    (hbase : initial.Extends t) : ∃ form union, ∃ t' : TypeTable,
      operation? .bitOr left right t = (some form, t') ∧ t.Extends t' ∧
        t'.find? (.union (t.members i ++ [j])) = some union ∧ t'.IsForm form union := by
  obtain ⟨hleft, -⟩ := hl.settled hbase
  obtain ⟨hright, -⟩ := hr.settled hbase
  simp only [List.mem_cons, List.not_mem_nil, or_false, not_or] at hleft hright
  let made := intern (.union (t.members i ++ [j])) t
  have hmade : t.Extends made.2 := extends_intern _ t
  have hlater : made.2.Extends (classObject made.1 made.2).2 := extends_intern _ made.2
  refine ⟨(classObject made.1 made.2).1, made.1, (classObject made.1 made.2).2, ?_,
    hmade.trans hlater, hlater.find? (find?_intern t _), isForm_classObject made.1 made.2⟩
  have hunknown : (left == .unknown || right == .unknown) = false := by
    simp [hleft.1, hright.1]
  have hany : (left == .any || right == .any) = false := by simp [hleft.2.2, hright.2.2]
  have hunion := unionForm?_eq hl hr hj hbase
  have hunion2 : union2 i j t = made := union2_eq hj
  simp only [operation?, hunknown, hany, Bool.false_eq_true, if_false, Bind.bind, StateT.bind,
    get, getThe, MonadStateOf.get, StateT.get, Pure.pure, hunion, beq_self_eq_true, if_true,
    Functor.map, StateT.map, hunion2]
  rfl

end TypeTable
end LiveCheck

namespace LiveCheck

open Session Evaluation Discipline TypeTable

/-! ## Nodes of type expressions -/

/-- Below the node, children come before their parents. -/
def Arena.Descends (a : Arena) (node : NodeId) : Prop :=
  ∀ n, a.Reachable node n → ∀ c ∈ a.children n, c < n

/-- Below the node, the names of built-in classes have no other meaning. -/
def Binding.KeepsClasses (b : Binding) (a : Arena) (node : NodeId) : Prop :=
  ∀ n name, a.Reachable node n → a.nameText? n = some name →
    (builtinClassNamed? name).isSome = true →
      b.declarationAt? n = none ∧ b.resolve? ((b.scopeOfName? n).getD 0) name = none

private theorem Arena.Descends.child {a : Arena} {node c : NodeId} (h : a.Descends node)
    (hc : c ∈ a.children node) : c < node ∧ a.Descends c :=
  ⟨h node .root c hc, fun n hn => h n (.trans (.child .root hc) hn)⟩

private theorem Binding.KeepsClasses.child {b : Binding} {a : Arena} {node c : NodeId}
    (h : b.KeepsClasses a node) (hc : c ∈ a.children node) : b.KeepsClasses a c :=
  fun n name hn => h n name (.trans (.child .root hc) hn)

namespace Hint

/-- The type expression stands at the node. -/
structure Stands (a : Arena) (b : Binding) (h : Hint) (node : NodeId) : Prop where
  shown : h.Shown a node
  descends : a.Descends node
  keeps : b.KeepsClasses a node

variable {a : Arena} {b : Binding} {cls : BuiltinClass} {args : List Hint} {h left right : Hint}
  {node c : NodeId}

private theorem Stands.of_child {other : Hint} (hstands : other.Stands a b node)
    (hc : c ∈ a.children node)
    (hshown : h.Shown a c) : c < node ∧ h.Stands a b c :=
  have hdescends := hstands.descends.child hc
  ⟨hdescends.1, hshown, hdescends.2, hstands.keeps.child hc⟩

/-- The class and the arguments of a subscript stand at nodes before it. -/
theorem Stands.subscript (h : (Hint.subscript cls args).Stands a b node) :
    ∃ i j, a.data? node = some (.subscript i j) ∧ i < node ∧ (Hint.cls cls).Stands a b i ∧
      List.Forall₂ (fun arg n => n < node ∧ arg.Stands a b n) args (a.indexParts j) := by
  obtain ⟨i, j, hdata, hi, hargs⟩ := h.shown
  have hchildren : a.children node = [i, j] := by rw [Arena.children, hdata]; rfl
  have hmem : j ∈ a.children node := by simp [hchildren]
  obtain ⟨hi', hstands⟩ := h.of_child (h := .cls cls) (hchildren ▸ List.mem_cons_self) hi
  obtain ⟨hj', hindex⟩ := h.descends.child hmem
  have hparts : ∀ n ∈ a.indexParts j, n < node ∧ a.Descends n ∧ b.KeepsClasses a n := by
    intro n hn
    unfold Arena.indexParts at hn
    split at hn
    · next elts helts =>
      have hchild : n ∈ a.children j := by rw [Arena.children, helts]; exact hn
      obtain ⟨hlt, hbelow⟩ := hindex.child hchild
      exact ⟨Nat.lt_trans hlt hj', hbelow, (h.keeps.child hmem).child hchild⟩
    · obtain rfl := List.mem_singleton.mp hn
      exact ⟨hj', hindex, h.keeps.child hmem⟩
  refine ⟨i, j, hdata, hi', hstands, ?_⟩
  rw [allShown_iff] at hargs
  clear h
  generalize a.indexParts j = parts at hargs hparts
  induction hargs with
  | nil => exact .nil
  | cons harg _ ih =>
    obtain ⟨⟨hlt, hdescends, hkeeps⟩, hparts⟩ := List.forall_mem_cons.mp hparts
    exact .cons ⟨hlt, harg, hdescends, hkeeps⟩ (ih hparts)

/-- What stands between bars stands at nodes before it. -/
theorem Stands.or (h : (Hint.or left right).Stands a b node) :
    ∃ i j, a.data? node = some (.binary i .bitOr j) ∧ i < node ∧ left.Stands a b i ∧
      j < node ∧ right.Stands a b j := by
  obtain ⟨i, j, hdata, hi, hj⟩ := h.shown
  have hchildren : a.children node = [i, j] := by rw [Arena.children, hdata]; rfl
  obtain ⟨hi', hleft⟩ := h.of_child (hchildren ▸ List.mem_cons_self) hi
  obtain ⟨hj', hright⟩ := h.of_child (c := j) (by simp [hchildren]) hj
  exact ⟨i, j, hdata, hi', hleft, hj', hright⟩

/-- The value is what the type expression evaluates to, also if the type expression becomes regular
only in a later table. -/
def Tells (t : TypeTable) (h : Hint) (form : TypeId) : Prop :=
  ∀ t', t.Extends t' → h.Regular t' → ∃ id < t.size, h.Means t' id ∧ t.IsForm form id

theorem Tells.extends {t t' : TypeTable} {h : Hint} {form : TypeId} (ht : h.Tells t form)
    (he : t.Extends t') : h.Tells t' form := fun t'' he' hr => by
  obtain ⟨id, hlt, hm, hform⟩ := ht t'' (he.trans he') hr
  exact ⟨id, Nat.lt_of_lt_of_le hlt he.size_le, hm, hform.extends he⟩

end Hint

/-! ## What a session knows -/

namespace Session

variable {file : FileId} {a : Arena} {b : Binding} {s t : Session} {u : SourceUnit} {slack : Nat}

/-- The file is bound, with this tree and these names. -/
def Hosts (s : Session) (file : FileId) (a : Arena) (b : Binding) : Prop :=
  ∃ u tree, s.unit? file = some u ∧ u.state.isBound = true ∧ u.tree = some tree ∧
    tree.arena = a ∧ u.binding = some b

private theorem Completes.hosts (h : s.Completes t) (hs : s.Hosts file a b) : t.Hosts file a b := by
  obtain ⟨u, tree, hu, hb, htree, ha, hbinding⟩ := hs
  obtain ⟨v, hv, hstays⟩ := h.bound file u hu hb
  exact ⟨v, tree, hv, hstays.isBound, hstays.tree.trans htree, ha, hstays.binding.trans hbinding⟩

/-- Nothing is being bound, the file is bound, and what is known about type expressions in it is
right. -/
structure Tells (file : FileId) (a : Arena) (b : Binding) (s : Session) : Prop where
  idle : s.inProgress = []
  hosts : s.Hosts file a b
  base : TypeTable.initial.Extends s.types
  known : ∀ h node type, Hint.Stands a b h node → s.Knows (.node file node) type →
    h.Tells s.types type

theorem Tells.prepares (hs : s.Tells file a b) (h : Prepares slack s t) : t.Tells file a b where
  idle := h.completes.inProgress.trans hs.idle
  hosts := h.completes.hosts hs.hosts
  base := hs.base.trans h.performs.steps.extends
  known hint node type hstands hknows :=
    (hs.known hint node type hstands (h.knows_iff.mp hknows)).extends h.performs.steps.extends

/-- A result may be kept that is right if it is one for a type expression. -/
theorem Tells.learned (hs : s.Tells file a b) {key : EvalKey} (hu : s.Opened key.file u)
    {node : NodeId} (hnode : u.KeepsAt key node) {type : TypeId}
    (hright : ∀ h n, key = .node file n → Hint.Stands a b h n → h.Tells s.types type) :
    (s.modifyUnit key.file (·.learned node key type)).Tells file a b where
  idle := hs.idle
  hosts := by
    have hstays : s.Completes (s.modifyUnit key.file (·.learned node key type)) :=
      completes_modifyUnit (fun _ _ h => h) fun _ _ h => ⟨h, rfl, rfl⟩
    exact hstays.hosts hs.hosts
  base := hs.base
  known hint n other hstands hknows := by
    by_cases hkey : EvalKey.node file n = key
    · subst hkey
      rw [hknows.unique (knows_learned hu hnode)] at hright
      exact hright hint n rfl hstands
    · exact hs.known hint n other hstands ((knows_learned_of_ne hu hnode hkey).mp hknows)

end Session

/-! ## Answers that may be wrong -/

namespace EvalState

variable {st st₁ st₂ : EvalState} {place : Nat} {file : FileId} {bound bound' : NodeId}
  {n : NodeId}

/-- On the way from one state to the other, a place on the stack was seen unfinished. -/
def Marks (st st' : EvalState) (place : Nat) : Prop :=
  ∃ news, st'.journal = news ++ st.journal ∧ ∃ m ∈ news, m.event.mark? = some place

theorem Marks.after (hadv : st.Advances st₁) (h : st₁.Marks st₂ place) : st.Marks st₂ place := by
  obtain ⟨news, hnews, m, hm, hmark⟩ := h
  obtain ⟨earlier, hearlier, -⟩ := hadv.events
  exact ⟨news ++ earlier, by rw [hnews, hearlier, List.append_assoc], m,
    List.mem_append_left _ hm, hmark⟩

private theorem Marks.before (h : st.Marks st₁ place) (hlater : st₁.journal <:+ st₂.journal) :
    st.Marks st₂ place := by
  obtain ⟨news, hnews, m, hm, hmark⟩ := h
  obtain ⟨later, hlater⟩ := hlater
  exact ⟨later ++ news, by rw [← hlater, hnews, List.append_assoc], m,
    List.mem_append_right _ hm, hmark⟩

/-- The innermost computation is marked for what was seen. -/
theorem Marks.lowestSeen_le (h : st.Marks st₁ place) (hadv : st.Advances st₁) :
    lowestSeen st₁.stack ≤ place := by
  obtain ⟨news, hnews, m, hm, hmark⟩ := h
  obtain ⟨events, hevents, hmarks⟩ := hadv.events
  obtain rfl := List.append_cancel_right (hnews.symm.trans hevents)
  exact (hmarks m hm).2 place hmark

/-- On the way from one state to the other, a full stack was met, or a node before the bound that was
being computed already. -/
def Stumbles (file : FileId) (bound : NodeId) (st st' : EvalState) : Prop :=
  st.Marks st' 0 ∨ ∃ n < bound, ∃ place,
    position? st.stack (.node file n) = some place ∧ st.Marks st' place

theorem Stumbles.mono (h : st.Stumbles file bound st₁) (hle : bound ≤ bound') :
    st.Stumbles file bound' st₁ :=
  h.imp_right fun ⟨n, hn, hplace⟩ => ⟨n, Nat.lt_of_lt_of_le hn hle, hplace⟩

theorem Stumbles.after (hadv : st.Advances st₁) (h : st₁.Stumbles file bound st₂) :
    st.Stumbles file bound st₂ := by
  refine h.imp (Marks.after hadv) fun ⟨n, hn, place, hplace, hmarks⟩ =>
    ⟨n, hn, place, ?_, hmarks.after hadv⟩
  rwa [position?_eq_keysOf, ← hadv.keys, ← position?_eq_keysOf]

theorem Stumbles.later (h : st.Stumbles file bound st₁) (hlater : st₁.journal <:+ st₂.journal) :
    st.Stumbles file bound st₂ :=
  h.imp (Marks.before · hlater) fun ⟨n, hn, place, hplace, hmarks⟩ =>
    ⟨n, hn, place, hplace, hmarks.before hlater⟩

theorem Stumbles.before (h : st.Stumbles file bound st₁) (hadv : st₁.Advances st₂) :
    st.Stumbles file bound st₂ := h.later hadv.suffix

private theorem position?_push {key other : EvalKey} (h : other ≠ key) (st : EvalState) :
    position? (push key st).2.stack other = position? st.stack other := by
  have hkeys : keysOf (push key st).2.stack = key :: keysOf st.stack := rfl
  rw [position?_eq_keysOf, position?_eq_keysOf, hkeys, List.reverse_cons, List.findIdx?_append]
  have hlast : [key].findIdx? (· == other) = none := by simp [Ne.symm h]
  rw [hlast]
  simp

private theorem position?_le_length {key : EvalKey} (h : position? st.stack key = some place) :
    place ≤ st.stack.length := by
  rw [position?_eq_keysOf] at h
  obtain ⟨index, hindex, rfl⟩ := Option.map_eq_some_iff.mp h
  have hlt := (List.findIdx?_eq_some_iff_getElem.mp hindex).1
  exact Nat.succ_le_of_lt (by simpa using hlt)

/-- The computation of a node that meets no node but those before it meets none that it is itself,
so whatever it stumbles over is below it on the stack. -/
theorem Stumbles.of_push (h : (push (.node file n) st).2.Stumbles file n st₁) :
    ∃ place ≤ st.stack.length, (push (.node file n) st).2.Marks st₁ place ∧
      st.Stumbles file n st₁ := by
  have hmarks {place : Nat} (h : (push (.node file n) st).2.Marks st₁ place) :
      st.Marks st₁ place := by
    obtain ⟨news, hnews, m, hm, hmark⟩ := h
    refine ⟨news ++ [⟨.began (.node file n), (push (.node file n) st).2.stack⟩], ?_, m,
      List.mem_append_left _ hm, hmark⟩
    rw [hnews, List.append_assoc]
    rfl
  rcases h with h | ⟨m, hm, place, hplace, h⟩
  · exact ⟨0, Nat.zero_le _, h, .inl (hmarks h)⟩
  · have hne : EvalKey.node file m ≠ .node file n := fun he =>
      absurd (EvalKey.node.inj he).2 (Nat.ne_of_lt hm)
    rw [position?_push hne] at hplace
    exact ⟨place, position?_le_length hplace, h, .inr ⟨m, hm, place, hplace, hmarks h⟩⟩

end EvalState

/-- On the way from one state to the other, no call without end was met, if the type expression ever
becomes regular. -/
def Hint.Ends (h : Hint) (st st' : EvalState) : Prop :=
  ∀ t, st'.session.types.Extends t → h.Regular t → st'.endless = st.endless

theorem Hint.Ends.later {h : Hint} {st st₁ st₂ : EvalState} (hends : h.Ends st st₁)
    (he : st₁.session.types.Extends st₂.session.types) (hlast : st₂.endless = st₁.endless) :
    h.Ends st st₂ := fun t het hr => hlast.trans (hends t (he.trans het) hr)

/-- An answer for the node of a type expression is right, unless something was met on the way. -/
def Hint.Answered (h : Hint) (file : FileId) (bound : NodeId) (st : EvalState)
    (r : TypeId × EvalState) : Prop :=
  (h.Tells r.2.session.types r.1 ∧ h.Ends st r.2) ∨ st.Stumbles file bound r.2

/-! ## The discipline -/

/-- The discipline of evaluations in sessions in which what is known about the type expressions of a
file is right. -/
def telling (slack : Nat) (file : FileId) (a : Arena) (b : Binding) (limit : Nat)
    (keys : List EvalKey) (answers : List (EvalKey × TypeId)) : Discipline EvalState where
  Ok st := st.InOrder slack limit keys answers ∧ st.session.Tells file a b
  size st := st.session.types.extent slack
  Step := EvalState.Proceeds slack
  refl := .refl slack
  trans := .trans

namespace Evaluation

variable {slack limit n : Nat} {file : FileId} {a : Arena} {b : Binding} {keys : List EvalKey}
  {answers : List (EvalKey × TypeId)} {α : Type} {R : α → Nat → Prop} {st : EvalState}
  {key : EvalKey} {ask : Ask}

private theorem telling_of_access {r : α × EvalState}
    (hst : (telling slack file a b limit keys answers).Ok st) (h : (access slack).Outcome st R r) :
    (telling slack file a b limit keys answers).Outcome st R r := by
  have hout : (evaluation slack limit keys answers).Outcome st R r := outcome_of_access hst.1 h
  exact ⟨⟨hout.ok, hst.2.prepares h.step.1⟩, hout.step, hout.grows, hout.result⟩

theorem sound_telling {m : EvalM α} (hm : (access slack).Sound n m R) :
    (telling slack file a b limit keys answers).Sound n m R :=
  fun st hst hn => telling_of_access hst (hm st hst.1.access hn)

theorem admits_telling
    (hask : ∀ n key, (telling slack file a b limit keys answers).Sound n (ask key) TypeId.Known) :
    Admits slack (telling slack file a b limit keys answers) ask :=
  have h : Admits slack (access slack) fun _ => return .unknown := admits_nothing
  have hbases := fun (_ : Nat) => sound_declaredBases hask
    (fun n file => sound_telling (h.binds n file))
    fun _ decl bases => sound_telling (sound_setBases decl bases)
  { size := fun _ => rfl
    closed := fun _ hst => hst.1.coherent.closed
    asks := hask
    makes := fun hm => sound_telling (h.makes hm)
    binds := fun n file => sound_telling (h.binds n file)
    imports := fun n file dotted level => sound_telling (h.imports n file dotted level)
    enters := fun n package name => sound_telling (h.enters n package name)
    reports := fun n file d => sound_telling (h.reports n file d)
    takes := fun n key => sound_telling (h.takes n key)
    bases := hbases
    compares := fun _ _ => sound_isAssignable hbases
      (fun _ source target => sound_telling (sound_compareTypes source target)) _ _
    strays := fun hR => sound_telling (h.strays hR) }

end Evaluation
end LiveCheck
