import LiveCheck.Proofs.ProperTrees
import LiveCheck.Proofs.Scanning.Spacing

/-!
# How nodes are built

A parser remembers where a construct begins, reads its parts, and makes a node of them. While it
does so the nodes it has read wait for their parent in the order of the text, and as long as nothing
is reported they do not touch each other. What is known at one point of a rule is a stage: the
offset where the construct began, the nodes that have been read since then with the places they are
for, and how far the next token is from them.
-/

/-!
## What may be a child of what

Every node keeps a slot for each of its children, and the slot says what kind of node may stand
there: an expression, a statement, a parameter and so on. A malformed node may stand anywhere.
-/

namespace LiveCheck

/-- The kinds of places that nodes have for their children. -/
inductive ChildSlot
  | expression | argument | parameter | name | alias | item | handler | statement
deriving DecidableEq

/-- Nodes in places of one kind. -/
def ChildSlot.all (slot : ChildSlot) (is : List NodeId) : List (ChildSlot × NodeId) := is.map (slot, ·)

@[simp] theorem ChildSlot.all_nil (slot : ChildSlot) : slot.all [] = [] := rfl

@[simp] theorem ChildSlot.all_cons (slot : ChildSlot) (i : NodeId) (is : List NodeId) :
    slot.all (i :: is) = (slot, i) :: slot.all is := rfl

@[simp] theorem ChildSlot.all_append (slot : ChildSlot) (is js : List NodeId) :
    slot.all (is ++ js) = slot.all is ++ slot.all js := List.map_append

@[simp] theorem ChildSlot.map_snd_all (slot : ChildSlot) (is : List NodeId) :
    (slot.all is).map Prod.snd = is := by
  simp [all, Function.comp_def]

theorem ChildSlot.mem_all {slot : ChildSlot} {e : ChildSlot × NodeId} :
    e ∈ slot.all is ↔ e.1 = slot ∧ e.2 ∈ is := by
  obtain ⟨slot', i⟩ := e
  simp [all, eq_comm, and_comm]

namespace NodeData

/-- The children of a node with the places they stand in. -/
def slots : NodeData → List (ChildSlot × NodeId)
  | root body => ChildSlot.statement.all body
  | globalStmt names | nonlocalStmt names => ChildSlot.name.all names
  | ifStmt test body orelse | whileLoop test body orelse =>
    ChildSlot.expression.all [test] ++ ChildSlot.statement.all (body ++ orelse)
  | forLoop target iter body orelse =>
    ChildSlot.expression.all [target, iter] ++ ChildSlot.statement.all (body ++ orelse)
  | tryStmt body handlers orelse finalbody =>
    ChildSlot.statement.all body ++ ChildSlot.handler.all handlers ++ ChildSlot.statement.all (orelse ++ finalbody)
  | handler type caught body =>
    ChildSlot.expression.all type.toList ++ ChildSlot.name.all caught.toList ++ ChildSlot.statement.all body
  | withStmt items body => ChildSlot.item.all items ++ ChildSlot.statement.all body
  | functionDef decorators defined params returns body =>
    ChildSlot.expression.all decorators ++ ChildSlot.name.all [defined] ++ ChildSlot.parameter.all params ++
      ChildSlot.expression.all returns.toList ++ ChildSlot.statement.all body
  | parameter _ declared hint default =>
    ChildSlot.name.all declared.toList ++ ChildSlot.expression.all (hint.toList ++ default.toList)
  | classDef decorators defined bases body =>
    ChildSlot.expression.all decorators ++ ChildSlot.name.all [defined] ++ ChildSlot.argument.all bases ++
      ChildSlot.statement.all body
  | importStmt names => ChildSlot.alias.all names
  | importFrom path _ names _ => ChildSlot.name.all path ++ ChildSlot.alias.all names
  | importAlias path asname => ChildSlot.name.all (path ++ asname.toList)
  | call func args => ChildSlot.expression.all [func] ++ ChildSlot.argument.all args
  | argument _ key value => ChildSlot.name.all key.toList ++ ChildSlot.expression.all [value]
  | member value attr => ChildSlot.expression.all [value] ++ ChildSlot.name.all [attr]
  | lambda params body => ChildSlot.parameter.all params ++ ChildSlot.expression.all [body]
  | data => ChildSlot.expression.all data.children

@[simp] theorem map_snd_slots (data : NodeData) : data.slots.map Prod.snd = data.children := by
  cases data <;> simp [slots, children]

theorem exists_slot {data : NodeData} {c : NodeId} (h : c ∈ data.children) :
    ∃ slot, (slot, c) ∈ data.slots := by
  rw [← map_snd_slots] at h
  obtain ⟨⟨slot, d⟩, hd, rfl⟩ := List.mem_map.mp h
  exact ⟨slot, hd⟩

/-- Whether the node may stand in a place of the given kind. An import of `*` names nothing else. -/
def suits (data : NodeData) (slot : ChildSlot) : Bool :=
  match data with
  | root .. => false
  | malformed => true
  | importFrom _ _ names wildcard => slot == .statement && (!wildcard || names.isEmpty)
  | name _ => slot == .name || slot == .expression
  | parameter .. => slot == .parameter
  | argument .. => slot == .argument
  | importAlias .. => slot == .alias
  | withItem .. => slot == .item
  | handler .. => slot == .handler
  | data => if data.isStatement then slot == .statement else slot == .expression

end NodeData

namespace Arena

/-- The node exists and may stand in a place of the given kind. -/
def Suits (a : Arena) (slot : ChildSlot) (i : NodeId) : Prop :=
  ∃ data, a.data? i = some data ∧ data.suits slot = true

/-- The children of the node suit their places. -/
def Fits (a : Arena) (data : NodeData) : Prop := ∀ e ∈ data.slots, a.Suits e.1 e.2

variable {a b : Arena} {slot : ChildSlot} {i : NodeId} {data : NodeData}

private theorem Suits.mono (h : a.Suits slot i)
    (hdata : ∀ i data, a.data? i = some data → b.data? i = some data) : b.Suits slot i := by
  obtain ⟨data, hi, hsuits⟩ := h
  exact ⟨data, hdata i data hi, hsuits⟩

private theorem Suits.lt_size (h : a.Suits slot i) : i < a.size := by
  obtain ⟨_, hi, -⟩ := h
  exact lt_size_of_data? hi

theorem Suits.of_data? (h : a.Suits slot i) (hdata : a.data? i = some data) :
    data.suits slot = true := by
  obtain ⟨_, hi, hsuits⟩ := h
  exact Option.some.inj (hdata.symm.trans hi) ▸ hsuits

theorem Fits.mono (h : a.Fits data)
    (hdata : ∀ i data, a.data? i = some data → b.data? i = some data) : b.Fits data :=
  fun e he => (h e he).mono hdata

theorem Fits.lt_size (h : a.Fits data) (hi : i ∈ data.children) : i < a.size := by
  rw [← data.map_snd_slots] at hi
  obtain ⟨e, he, rfl⟩ := List.mem_map.mp hi
  exact (h e he).lt_size

end Arena
end LiveCheck

namespace LiveCheck

open Text

variable {text : List Char} {span : Span}

namespace Text

/-- An offset between two characters of a text. -/
def Boundary (text : List Char) (n : Nat) : Prop :=
  ∃ before behind, text = before ++ behind ∧ byteLength before = n

theorem Boundary.le {n : Nat} (h : Boundary text n) : n ≤ byteLength text := by
  obtain ⟨before, behind, rfl, rfl⟩ := h
  rw [byteLength_append]
  exact Nat.le_add_right _ _

end Text

theorem Span.lies_iff : span.Lies text ↔
    span.start ≤ span.stop ∧ Boundary text span.start ∧ Boundary text span.stop := by
  constructor
  · intro h
    obtain ⟨middle, hslice⟩ := Option.isSome_iff_exists.mp h
    obtain ⟨before, behind, htext, hstart, hstop⟩ := exists_of_slice? hslice
    refine ⟨by omega, ⟨before, _, htext, hstart⟩, before ++ middle, behind, ?_, ?_⟩
    · rw [htext, List.append_assoc]
    · rw [byteLength_append, hstart, hstop]
  · rintro ⟨hle, ⟨before, behind, htext, hstart⟩, before', behind', htext', hstop⟩
    rw [htext] at htext'
    rcases List.append_eq_append_iff.mp htext' with ⟨middle, rfl, rfl⟩ | ⟨middle, rfl, rfl⟩
    · rw [byteLength_append] at hstop
      have hslice := slice?_append before middle behind'
      rw [← htext, hstart, show span.start + byteLength middle = span.stop by omega] at hslice
      exact Option.isSome_of_mem hslice
    · rw [byteLength_append] at hstart
      have hslice := slice?_append before' [] (middle ++ behind)
      rw [List.nil_append, ← List.append_assoc, ← htext, hstop,
        show span.stop + byteLength [] = span.stop from rfl] at hslice
      have heq : span.start = span.stop := by omega
      rw [Span.Lies, heq]
      exact Option.isSome_of_mem hslice

namespace Arena

/-- The nodes stand one behind the other and do not touch. -/
def Apart (a : Arena) (is : List NodeId) : Prop :=
  is.Pairwise fun i j => (a.span i).stop < (a.span j).start

/-- The node has characters, its children lie within it, and they do not touch. -/
structure Encloses (a : Arena) (i : NodeId) (is : List NodeId) : Prop where
  size : (a.span i).start < (a.span i).stop
  inside : ∀ c ∈ is, (a.span c).Inside (a.span i)
  apart : a.Apart is

end Arena

/-- How far the next token is from the nodes that wait for a parent. -/
inductive Gap
  /-- It may touch the last of them. -/
  | closed
  /-- It touches none of them. -/
  | ready
  /-- It does not touch the last token that was taken. -/
  | fresh

/-- A point of a rule. -/
structure Stage where
  /-- How far the next token is from the nodes. -/
  gap : Gap
  /-- Where the construct began, once one of its tokens has been taken. -/
  mark : Option Nat
  /-- The nodes that have been read since then. -/
  used : List (ChildSlot × NodeId)

/-- A text with its tokens. -/
structure Source where
  text : List Char
  tokens : Array Token
  spaced : Token.Spaced text tokens

/-- A later state of a parse: nodes are added, and problems stay on record. -/
structure ParseState.Onward (s t : ParseState) : Prop where
  findings : s.findings.size ≤ t.findings.size
  size : s.arena.size ≤ t.arena.size
  data : ∀ i < s.arena.size, t.arena.data? i = s.arena.data? i
  span : ∀ i < s.arena.size, t.arena.span i = s.arena.span i

private theorem ParseState.Onward.refl (s : ParseState) : s.Onward s :=
  ⟨Nat.le_refl _, Nat.le_refl _, fun _ _ => rfl, fun _ _ => rfl⟩

theorem ParseState.Onward.trans {s t r : ParseState} (h : s.Onward t) (h' : t.Onward r) :
    s.Onward r where
  findings := Nat.le_trans h.findings h'.findings
  size := Nat.le_trans h.size h'.size
  data i hi := (h'.data i (Nat.lt_of_lt_of_le hi h.size)).trans (h.data i hi)
  span i hi := (h'.span i (Nat.lt_of_lt_of_le hi h.size)).trans (h.span i hi)

namespace Source

variable {T : Source} {s t : ParseState} {ps : List NodeId} {g g' : Gap} {m : Option Nat} {a : Nat}
  {used : List (ChildSlot × NodeId)} {slot : ChildSlot} {data : NodeData}

/-- The next token does not touch the last one that was taken. -/
def Behind (T : Source) (s : ParseState) : Prop :=
  s.lastStop = 0 ∨ s.lastStop < s.token.span.start ∨ s.token.span.start = byteLength T.text

/-- The next token is as far from the nodes as the gap says. -/
def Keeps (T : Source) (s : ParseState) (is : List NodeId) : Gap → Prop
  | .closed => True
  | .ready => ∀ i ∈ is, (s.arena.span i).stop < s.token.span.start ∨
    s.token.span.start = byteLength T.text
  | .fresh => T.Behind s

/-- What holds at every point, also behind problems. -/
structure Sound (T : Source) (s : ParseState) : Prop where
  tokens : s.tokens = T.tokens
  cursor : s.cursor < s.tokens.size
  stop : Boundary T.text s.lastStop
  fits : ∀ i data, s.arena.data? i = some data → s.arena.Fits data
  lies : ∀ i < s.arena.size, (s.arena.span i).Lies T.text

/-- What holds of the nodes that wait for a parent as long as nothing is reported. -/
structure Tidy (T : Source) (s : ParseState) (is : List NodeId) : Prop where
  apart : s.arena.Apart is
  placed : ∀ i ∈ is, (s.arena.span i).start < (s.arena.span i).stop ∧
    (s.arena.span i).stop ≤ s.lastStop
  passed : s.lastStop ≤ s.token.span.start
  block : s.token.kind = .indent ∨ s.token.kind = .dedent → T.Behind s
  encloses : ∀ i data, s.arena.data? i = some data → s.arena.Encloses i data.children

/-- The construct began behind the nodes that waited before, and its own nodes stand behind its
beginning. -/
structure Marked (s : ParseState) (a : Nat) (ps is : List NodeId) : Prop where
  taken : a < s.lastStop
  before : ∀ i ∈ ps, (s.arena.span i).stop < a
  behind : ∀ i ∈ is, a ≤ (s.arena.span i).start

/-- The state is at a stage, and `ps` are the nodes that waited before. -/
structure At (T : Source) (s : ParseState) (ps : List NodeId) (p : Stage) : Prop where
  sound : T.Sound s
  suits : ∀ e ∈ p.used, s.arena.Suits e.1 e.2
  bound : ∀ a ∈ p.mark, Boundary T.text a
  tidy : s.findings.size = 0 → T.Tidy s (ps ++ p.used.map Prod.snd)
  gap : s.findings.size = 0 → T.Keeps s (ps ++ p.used.map Prod.snd) p.gap
  marked : s.findings.size = 0 → ∀ a ∈ p.mark, Marked s a ps (p.used.map Prod.snd)

/-! ## The next token -/

private theorem Sound.token_mem (h : T.Sound s) : s.token ∈ T.tokens := by
  rw [← h.tokens, ParseState.token_eq h.cursor]
  exact Array.getElem_mem h.cursor

private theorem Sound.token_lies (h : T.Sound s) :
    s.token.span.Lies T.text := T.spaced.lies _ h.token_mem

theorem Sound.boundary (h : T.Sound s) :
    Boundary T.text s.token.span.start ∧ Boundary T.text s.token.span.stop :=
  (Span.lies_iff.mp h.token_lies).2

theorem Sound.token_le (h : T.Sound s) :
    s.token.span.start ≤ s.token.span.stop ∧ s.token.span.stop ≤ byteLength T.text :=
  ⟨(Span.lies_iff.mp h.token_lies).1, h.boundary.2.le⟩

private theorem Sound.lt_size (h : T.Sound s) (hk : s.token.kind ≠ .endOfFile) :
    s.cursor + 1 < s.tokens.size :=
  ParseState.succ_lt_size (h.tokens ▸ T.spaced.ended) h.cursor hk

private theorem getElem?_token (h : s.cursor < s.tokens.size) :
    s.tokens[s.cursor]? = some s.token := by
  rw [Array.getElem?_eq_getElem h, ParseState.token_eq h]

private theorem Sound.pair (h : T.Sound s) (hk : s.token.kind ≠ .endOfFile) :
    T.tokens[s.cursor]? = some s.token ∧ T.tokens[s.cursor + 1]? = some s.passed.token := by
  rw [← h.tokens]
  exact ⟨getElem?_token h.cursor, getElem?_token (s := s.passed) (h.lt_size hk)⟩

private theorem Sound.token_lt (h : T.Sound s) (hline : s.token.kind.endsLine = false) :
    s.token.span.start < s.token.span.stop := T.spaced.size _ h.token_mem hline

private theorem ne_endOfFile_of_inLine {k : TokenKind} (h : k.endsLine = false) :
    k ≠ .endOfFile := by
  rintro rfl
  cases h

private theorem ne_endOfFile_of_isLayout {k : TokenKind} (h : k.isLayout = true) :
    k ≠ .endOfFile := by
  rintro rfl
  cases h

/-! ## From one stage to another -/

/-- Behind a problem nothing is claimed of the nodes that wait. -/
theorem At.of_findings {p p' : Stage} {ps' : List NodeId} (h : T.At s ps p)
    (hsize : s.findings.size ≠ 0) (hused : ∀ e ∈ p'.used, e ∈ p.used)
    (hbound : ∀ a ∈ p'.mark, Boundary T.text a) : T.At s ps' p' :=
  ⟨h.sound, fun e he => h.suits e (hused e he), hbound, fun hclean => absurd hclean hsize,
    fun hclean => absurd hclean hsize, fun hclean => absurd hclean hsize⟩

/-- More problems do no harm. -/
theorem At.findings {p : Stage} {findings : Array Finding} (h : T.At s ps p)
    (hle : s.findings.size ≤ findings.size) : T.At { s with findings := findings } ps p := by
  have hclean (hsize : findings.size = 0) : s.findings.size = 0 := by omega
  refine ⟨⟨h.sound.tokens, h.sound.cursor, h.sound.stop, h.sound.fits, h.sound.lies⟩, h.suits,
    h.bound, fun hsize => ?_, fun hsize => ?_, fun hsize a ha => ?_⟩
  · obtain ⟨apart, placed, passed, block, encloses⟩ := h.tidy (hclean hsize)
    exact ⟨apart, placed, passed, block, encloses⟩
  · have hgap := h.gap (hclean hsize)
    cases hg : p.gap <;> rw [hg] at hgap <;> exact hgap
  · obtain ⟨taken, before, behind⟩ := h.marked (hclean hsize) a ha
    exact ⟨taken, before, behind⟩

private theorem At.close (h : T.At s ps ⟨g, m, used⟩) : T.At s ps ⟨.closed, m, used⟩ :=
  ⟨h.sound, h.suits, h.bound, h.tidy, fun _ => trivial, h.marked⟩

private theorem Behind.ready (h : T.Behind s) (htidy : T.Tidy s is) :
    T.Keeps s is .ready := by
  intro i hi
  obtain ⟨hsize, hstop⟩ := htidy.placed i hi
  rcases h with h | h | h
  · omega
  · exact .inl (by omega)
  · exact .inr h

private theorem At.ready (h : T.At s ps ⟨.fresh, m, used⟩) : T.At s ps ⟨.ready, m, used⟩ :=
  ⟨h.sound, h.suits, h.bound, h.tidy, fun hclean => Behind.ready (h.gap hclean) (h.tidy hclean),
    h.marked⟩

/-- At the end of a line nothing follows that touches it. -/
theorem At.fresh (h : T.At s ps ⟨g, m, used⟩) (hk : s.token.kind.endsLine = true)
    (hnewline : s.token.kind ≠ .newline) : T.At s ps ⟨.fresh, m, used⟩ := by
  refine ⟨h.sound, h.suits, h.bound, h.tidy, fun hclean => ?_, h.marked⟩
  have hlast := T.spaced.last _ h.sound.token_mem
  have hblock := (h.tidy hclean).block
  cases hkind : s.token.kind <;> rw [hkind] at hk hnewline hlast hblock
  case endOfFile => exact .inr (.inr (hlast rfl))
  case indent => exact hblock (.inl rfl)
  case dedent => exact hblock (.inr rfl)
  all_goals contradiction

private theorem Sound.taken (h : T.Sound s) (hline : s.token.kind.endsLine = false) :
    T.Sound s.taken :=
  ⟨h.tokens, h.lt_size (ne_endOfFile_of_inLine hline), h.boundary.2, h.fits, h.lies⟩

private theorem Tidy.taken (h : T.Tidy s is) (hs : T.Sound s)
    (hline : s.token.kind.endsLine = false) :
    T.Tidy s.taken is ∧ T.Keeps s.taken is .ready ∧ s.lastStop < s.taken.lastStop := by
  have hlt := hs.token_lt hline
  obtain ⟨hx, hy⟩ := hs.pair (ne_endOfFile_of_inLine hline)
  have hnext : s.token.span.stop ≤ s.taken.token.span.start := T.spaced.apart hx hy
  have hpassed := h.passed
  have hstop : s.taken.lastStop = s.token.span.stop := rfl
  refine ⟨⟨h.apart, fun i hi => ?_, hnext, fun hk => ?_, h.encloses⟩, fun i hi => .inl ?_, by omega⟩
  · obtain ⟨hsize, hi⟩ := h.placed i hi
    exact ⟨hsize, show (s.arena.span i).stop ≤ s.token.span.stop by omega⟩
  · have hlayout := TokenKind.endsLine_of_isLayout (T.spaced.block hx hy hk)
    rw [hline] at hlayout
    cases hlayout
  · have hi := (h.placed i hi).2
    show (s.arena.span i).stop < s.taken.token.span.start
    omega

/-- A token of a line is taken. -/
theorem At.taken (h : T.At s ps ⟨g, m, used⟩) (hline : s.token.kind.endsLine = false) :
    T.At s.taken ps ⟨.ready, m, used⟩ := by
  refine ⟨h.sound.taken hline, h.suits, h.bound, fun hclean => ?_, fun hclean => ?_, fun hclean a ha => ?_⟩
  · exact ((h.tidy hclean).taken h.sound hline).1
  · exact ((h.tidy hclean).taken h.sound hline).2.1
  · obtain ⟨taken, before, behind⟩ := h.marked hclean a ha
    exact ⟨Nat.lt_trans taken ((h.tidy hclean).taken h.sound hline).2.2, before, behind⟩

/-- The first token of a construct is taken. -/
theorem At.opened (h : T.At s ps ⟨.ready, none, []⟩) (hline : s.token.kind.endsLine = false) :
    T.At s.taken ps ⟨.ready, some s.token.span.start, []⟩ := by
  have htaken := h.taken hline
  have hlt := h.sound.token_lt hline
  have hle := h.sound.token_le
  refine ⟨htaken.sound, htaken.suits, fun a ha => ?_, htaken.tidy, htaken.gap, fun hclean a ha => ?_⟩
  · rw [← Option.mem_some.mp ha]
    exact h.sound.boundary.1
  · rw [← Option.mem_some.mp ha]
    refine ⟨hlt, fun i hi => ?_, nofun⟩
    rcases h.gap hclean i (List.mem_append_left _ hi) with hbefore | hend
    · exact hbefore
    · omega

private theorem At.passed (h : T.At s ps ⟨g, m, used⟩) (hlayout : s.token.kind.isLayout = true) :
    T.At s.passed ps ⟨.fresh, m, used⟩ := by
  have hk := ne_endOfFile_of_isLayout hlayout
  obtain ⟨hx, hy⟩ := h.sound.pair hk
  have hnext := T.spaced.apart hx hy
  have hle := h.sound.token_le
  have hsound : T.Sound s.passed :=
    ⟨h.sound.tokens, h.sound.lt_size hk, h.sound.stop, h.sound.fits, h.sound.lies⟩
  have hend := Nat.le_trans hsound.token_le.1 hsound.token_le.2
  have hbehind (hclean : s.findings.size = 0) : T.Behind s.passed := by
    have hpassed := (h.tidy hclean).passed
    have hblock := (h.tidy hclean).block
    have hnewline := T.spaced.newline _ h.sound.token_mem
    have hstop : s.passed.lastStop = s.lastStop := rfl
    simp only [Behind, hstop] at hblock ⊢
    cases hkind : s.token.kind <;> rw [hkind] at hlayout hblock hnewline
    case newline =>
      rcases hnewline rfl with hlt | hend' <;> omega
    case indent =>
      rcases hblock (.inl rfl) with h | h | h <;> omega
    case dedent =>
      rcases hblock (.inr rfl) with h | h | h <;> omega
    all_goals cases hlayout
  refine ⟨hsound, h.suits, h.bound, fun hclean => ?_, hbehind, fun hclean a ha => ?_⟩
  · have htidy := h.tidy hclean
    have hpassed := htidy.passed
    refine ⟨htidy.apart, htidy.placed, ?_, fun _ => hbehind hclean, htidy.encloses⟩
    show s.lastStop ≤ s.passed.token.span.start
    omega
  · obtain ⟨taken, before, behind⟩ := h.marked hclean a ha
    exact ⟨taken, before, behind⟩

/-! ## Making a node -/

private theorem Sound.add (h : T.Sound s) (ha : Boundary T.text a) (hfits : s.arena.Fits data) :
    T.Sound { s with arena := (s.arena.add data ⟨a, max s.lastStop a⟩).2 } := by
  have hdata := (s.arena.extends_add data ⟨a, max s.lastStop a⟩).data?
  refine ⟨h.tokens, h.cursor, h.stop, fun i d hi => ?_, fun i hi => ?_⟩
  · rcases Nat.lt_or_ge i s.arena.size with hlt | hge
    · exact (h.fits i d ((s.arena.data?_add_of_lt hlt _ _).symm.trans hi)).mono hdata
    · have hsize := Arena.lt_size_of_data? hi
      rw [Arena.size_add] at hsize
      obtain rfl : i = s.arena.size := Nat.le_antisymm (Nat.lt_succ_iff.mp hsize) hge
      obtain rfl := Option.some.inj (hi.symm.trans (Arena.data?_add _ _ _))
      exact hfits.mono hdata
  · rcases Nat.lt_or_ge i s.arena.size with hlt | hge
    · rw [Arena.span_add_of_lt hlt]
      exact h.lies i hlt
    · rw [Arena.size_add] at hi
      obtain rfl : i = s.arena.size := Nat.le_antisymm (Nat.lt_succ_iff.mp hi) hge
      rw [show (s.arena.add data ⟨a, max s.lastStop a⟩).2.span s.arena.size = ⟨a, max s.lastStop a⟩
        from Arena.span_add _ _ _]
      refine Span.lies_iff.mpr ⟨Nat.le_max_right _ _, ha, ?_⟩
      rcases Nat.le_total s.lastStop a with hle | hle
      · rw [Nat.max_eq_right hle]
        exact ha
      · rw [Nat.max_eq_left hle]
        exact h.stop

theorem onward_add (s : ParseState) (data : NodeData) (span : Span) :
    s.Onward { s with arena := (s.arena.add data span).2 } where
  findings := Nat.le_refl _
  size := by
    show _ ≤ (s.arena.add data span).2.size
    rw [Arena.size_add]
    exact Nat.le_succ _
  data _ hi := Arena.data?_add_of_lt hi _ _
  span _ hi := Arena.span_add_of_lt hi _ _

theorem Tidy.lt_size (h : T.Tidy s is) {i : NodeId} (hi : i ∈ is) :
    i < s.arena.size := by
  by_contra hge
  have hnone : s.arena.span i = ⟨0, 0⟩ := by
    rw [Arena.span, Array.getElem?_eq_none (Nat.not_lt.mp hge)]
    rfl
  have hsize := (h.placed i hi).1
  rw [hnone] at hsize
  exact Nat.lt_irrefl _ hsize

private theorem Tidy.add (h : T.Tidy s (ps ++ is)) (hs : T.Sound s) (hmark : Marked s a ps is)
    (his : is = data.children) :
    let t := { s with arena := (s.arena.add data ⟨a, max s.lastStop a⟩).2 }
    T.Tidy t (ps ++ [(s.arena.add data ⟨a, max s.lastStop a⟩).1]) ∧
      Marked t a ps [(s.arena.add data ⟨a, max s.lastStop a⟩).1] := by
  intro t
  have hmax : max s.lastStop a = s.lastStop := Nat.max_eq_left (Nat.le_of_lt hmark.taken)
  have hnew : t.arena.span (s.arena.add data ⟨a, max s.lastStop a⟩).1 = ⟨a, s.lastStop⟩ := by
    rw [← hmax]
    exact Arena.span_add _ _ _
  have hold (i : NodeId) (hi : i < s.arena.size) : t.arena.span i = s.arena.span i :=
    Arena.span_add_of_lt hi _ _
  have hbefore (i : NodeId) (hi : i ∈ ps) : t.arena.span i = s.arena.span i :=
    hold i (h.lt_size (List.mem_append_left _ hi))
  have hchild (i : NodeId) (hi : i ∈ is) : t.arena.span i = s.arena.span i :=
    hold i (h.lt_size (List.mem_append_right _ hi))
  obtain ⟨hps, his', -⟩ := List.pairwise_append.mp h.apart
  refine ⟨⟨?_, fun i hi => ?_, h.passed, h.block, fun i d hi => ?_⟩, hmark.taken, fun i hi => ?_,
    fun i hi => ?_⟩
  · refine List.pairwise_append.mpr ⟨hps.imp_of_mem fun hi hj hlt => ?_, List.pairwise_singleton _ _,
      fun i hi j hj => ?_⟩
    · rwa [hbefore _ hi, hbefore _ hj]
    · rw [List.mem_singleton.mp hj, hnew, hbefore i hi]
      exact hmark.before i hi
  · rcases List.mem_append.mp hi with hi | hi
    · rw [hbefore i hi]
      exact h.placed i (List.mem_append_left _ hi)
    · rw [List.mem_singleton.mp hi, hnew]
      exact ⟨hmark.taken, Nat.le_refl _⟩
  · rcases Nat.lt_or_ge i s.arena.size with hlt | hge
    · obtain ⟨hsize, hinside, hapart⟩ :=
        h.encloses i d ((s.arena.data?_add_of_lt hlt _ _).symm.trans hi)
      have hfits (c : NodeId) (hc : c ∈ d.children) : t.arena.span c = s.arena.span c :=
        hold c ((hs.fits i d ((s.arena.data?_add_of_lt hlt _ _).symm.trans hi)).lt_size hc)
      refine ⟨by rwa [hold i hlt], fun c hc => ?_, hapart.imp_of_mem fun hc hc' hlt' => ?_⟩
      · rw [hold i hlt, hfits c hc]
        exact hinside c hc
      · rwa [hfits _ hc, hfits _ hc']
    · have hsize := Arena.lt_size_of_data? hi
      rw [Arena.size_add] at hsize
      obtain rfl : i = s.arena.size := Nat.le_antisymm (Nat.lt_succ_iff.mp hsize) hge
      obtain rfl := Option.some.inj (hi.symm.trans (Arena.data?_add _ _ _))
      subst his
      refine ⟨?_, fun c hc => ?_, his'.imp_of_mem fun hc hc' hlt' => ?_⟩
      · rw [show t.arena.span s.arena.size = ⟨a, s.lastStop⟩ from hnew]
        exact hmark.taken
      · rw [show t.arena.span s.arena.size = ⟨a, s.lastStop⟩ from hnew, hchild c hc]
        exact ⟨hmark.behind c hc, (h.placed c (List.mem_append_right _ hc)).2⟩
      · rwa [hchild _ hc, hchild _ hc']
  · rw [hbefore i hi]
    exact hmark.before i hi
  · rw [List.mem_singleton.mp hi]
    exact Nat.le_of_eq (congrArg Span.start hnew).symm

theorem At.add (slot : ChildSlot) (h : T.At s ps ⟨g, some a, used⟩) (hslots : data.slots = used)
    (hsuits : data.suits slot = true) :
    let t := { s with arena := (s.arena.add data ⟨a, max s.lastStop a⟩).2 }
    T.At t ps ⟨.closed, some a, [(slot, (s.arena.add data ⟨a, max s.lastStop a⟩).1)]⟩ := by
  subst hslots
  have hadded (hclean : s.findings.size = 0) :=
    (h.tidy hclean).add h.sound (h.marked hclean a rfl) data.map_snd_slots
  refine ⟨h.sound.add (h.bound a rfl) h.suits, fun e he => ?_, h.bound, fun hclean => (hadded hclean).1,
    fun _ => trivial, fun hclean b hb => ?_⟩
  · rw [List.mem_singleton.mp he]
    exact ⟨data, Arena.data?_add _ _ _, hsuits⟩
  · rw [← Option.mem_some.mp hb]
    exact (hadded hclean).2

/-- The elements of a tuple may take its place. -/
theorem At.elements {i : NodeId} {elts : List NodeId}
    (h : T.At s ps ⟨g, some a, [(.expression, i)]⟩) (hi : s.arena.data? i = some (.tuple elts)) :
    T.At s ps ⟨.closed, some a, ChildSlot.expression.all elts⟩ := by
  have hfits := h.sound.fits i _ hi
  refine ⟨h.sound, hfits, h.bound, fun hclean => ?_, fun _ => trivial, fun hclean b hb => ?_⟩
  · obtain ⟨apart, placed, passed, block, encloses⟩ := h.tidy hclean
    obtain ⟨-, hinside, helts⟩ := encloses i _ hi
    obtain ⟨hps, -, hbefore⟩ := List.pairwise_append.mp apart
    have hplace := (placed i (List.mem_append_right _ List.mem_cons_self)).2
    rw [ChildSlot.map_snd_all]
    refine ⟨List.pairwise_append.mpr ⟨hps, helts, fun p hp e he => ?_⟩, fun e he => ?_, passed, block,
      encloses⟩
    · exact Nat.lt_of_lt_of_le (hbefore p hp i List.mem_cons_self) (hinside e he).1
    · rcases List.mem_append.mp he with he | he
      · exact placed e (List.mem_append_left _ he)
      · obtain ⟨d, hd, -⟩ := hfits (.expression, e) (ChildSlot.mem_all.mpr ⟨rfl, he⟩)
        exact ⟨(encloses e d hd).size, Nat.le_trans (hinside e he).2 hplace⟩
  · obtain ⟨-, hinside, -⟩ := (h.tidy hclean).encloses i _ hi
    obtain ⟨taken, before, behind⟩ := h.marked hclean b hb
    rw [ChildSlot.map_snd_all]
    exact ⟨taken, before, fun e he =>
      Nat.le_trans (behind i List.mem_cons_self) (hinside e he).1⟩

private theorem At.beside {used' : List (ChildSlot × NodeId)} (h : T.At s ps ⟨g, m, used⟩)
    (ht : T.At t (ps ++ used.map Prod.snd) ⟨g', some s.token.span.start, used'⟩) (hon : s.Onward t)
    :
    T.At t ps ⟨g', m, used ++ used'⟩ := by
  have hclean' (hclean : t.findings.size = 0) : s.findings.size = 0 := by
    have := hon.findings
    omega
  have heq : ps ++ (used ++ used').map Prod.snd = ps ++ used.map Prod.snd ++ used'.map Prod.snd := by
    simp
  refine ⟨ht.sound, fun e he => ?_, h.bound, fun hclean => heq ▸ ht.tidy hclean,
    fun hclean => heq ▸ ht.gap hclean, fun hclean a ha => ?_⟩
  · rcases List.mem_append.mp he with he | he
    · exact (h.suits e he).mono fun i d hi => (hon.data i (Arena.lt_size_of_data? hi)).trans hi
    · exact ht.suits e he
  · have htidy := h.tidy (hclean' hclean)
    obtain ⟨taken, before, behind⟩ := h.marked (hclean' hclean) a ha
    obtain ⟨taken', -, behind'⟩ := ht.marked hclean _ rfl
    have hpassed := htidy.passed
    refine ⟨by omega, fun i hi => ?_, fun i hi => ?_⟩
    · rw [hon.span i (htidy.lt_size (List.mem_append_left _ hi))]
      exact before i hi
    · rw [List.map_append] at hi
      rcases List.mem_append.mp hi with hi | hi
      · rw [hon.span i (htidy.lt_size (List.mem_append_right _ hi))]
        exact behind i hi
      · have := behind' i hi
        omega

/-! ## Rules -/

section Rules

open LiveCheck.Parser

variable {α β : Type} {p : Stage} {x : Parser α} {k : α → Parser β} {q : α → Stage} {r : β → Stage}
  {code : Nat} {arg : Option String}

/-- From the first stage the parser gets to the second, whatever nodes wait. -/
def Builds (T : Source) (s : ParseState) (p : Stage) (x : Parser α) (q : α → Stage) : Prop :=
  ∀ ps, T.At s ps p → T.At (x.run s).2 ps (q (x.run s).1) ∧ s.Onward (x.run s).2

theorem Builds.pure {b : β} (h : r b = p) : T.Builds s p (pure b) r :=
  fun _ hp => ⟨h ▸ hp, .refl s⟩

theorem Builds.done {b : β} (h : r b = ⟨.closed, m, used⟩) :
    T.Builds s ⟨g, m, used⟩ (Pure.pure b) r :=
  fun _ hp => ⟨h ▸ hp.close, .refl s⟩

theorem Builds.of_at (h : ∀ ps, T.At s ps p → T.Builds s p x q) : T.Builds s p x q :=
  fun ps hp => h ps hp ps hp

theorem Builds.bindOnward (hx : T.Builds s p x q)
    (h : ∀ a s', s.Onward s' → T.Builds s' (q a) (k a) r) : T.Builds s p (x >>= k) r := by
  intro ps hp
  obtain ⟨hat, hon⟩ := hx ps hp
  obtain ⟨hat', hon'⟩ := h (x.run s).1 (x.run s).2 hon ps hat
  rw [run_bind (x := x) rfl]
  exact ⟨hat', hon.trans hon'⟩

theorem Builds.bind (hx : T.Builds s p x q) (h : ∀ a s', T.Builds s' (q a) (k a) r) :
    T.Builds s p (x >>= k) r := hx.bindOnward fun a s' _ => h a s'

theorem Builds.map {f : α → β} (hx : T.Builds s p x q) (h : ∀ a, r (f a) = q a) :
    T.Builds s p (f <$> x) r := by
  intro ps hp
  obtain ⟨hat, hon⟩ := hx ps hp
  refine ⟨?_, hon⟩
  show T.At (x.run s).2 ps (r (f (x.run s).1))
  rw [h]
  exact hat

theorem Builds.ready (h : T.Builds s ⟨.ready, m, used⟩ x q) : T.Builds s ⟨.fresh, m, used⟩ x q :=
  fun ps hp => h ps hp.ready

/-- A part of a construct is built beside what was read before. -/
theorem Builds.beside {nodes : α → List (ChildSlot × NodeId)}
    (h : T.Builds s ⟨.ready, none, []⟩ x fun a => ⟨g', some s.token.span.start, nodes a⟩) :
    T.Builds s ⟨.ready, m, used⟩ x fun a => ⟨g', m, used ++ nodes a⟩ := by
  intro ps hp
  have hp' : T.At s (ps ++ used.map Prod.snd) ⟨.ready, none, []⟩ := by
    refine ⟨hp.sound, nofun, nofun, ?_, ?_, fun _ => nofun⟩
    · simpa using hp.tidy
    · simpa using hp.gap
  obtain ⟨hat, hon⟩ := h _ hp'
  exact ⟨hp.beside hat hon, hon⟩

/-! ## Looking ahead -/

theorem Builds.look {a : α} (hx : x.run s = (a, s)) (h : T.Builds s p (k a) r) :
    T.Builds s p (x >>= k) r := by
  intro ps hp
  rw [run_bind hx]
  exact h ps hp

theorem Builds.kind {k : TokenKind → Parser β} (h : T.Builds s p (k s.token.kind) r) :
    T.Builds s p (Parser.kind >>= k) r := .look rfl h

theorem Builds.current {k : Token → Parser β} (h : T.Builds s p (k s.token) r) :
    T.Builds s p (Parser.current >>= k) r := .look rfl h

theorem Builds.following {k : TokenKind → Parser β} (h : T.Builds s p (k s.nextKind) r) :
    T.Builds s p (Parser.following >>= k) r := .look rfl h

theorem Builds.start {k : Nat → Parser β} (h : T.Builds s p (k s.token.span.start) r) :
    T.Builds s p (Parser.start >>= k) r := .look rfl h

/-- There is always a token left. -/
theorem Builds.remaining {k : Nat → Parser β} (h : ∀ n, T.Builds s p (k (n + 1)) r) :
    T.Builds s p (Parser.remaining >>= k) r := .of_at fun _ hp => by
  have hcursor := hp.sound.cursor
  obtain ⟨n, hn⟩ : ∃ n, s.remaining = n + 1 := ⟨s.remaining - 1, by
    rw [ParseState.remaining]
    omega⟩
  have hrun : Parser.remaining.run s = (n + 1, s) := congrArg (·, s) hn
  exact .look hrun (h n)

theorem Builds.peek {x : Parser Bool} {f : TokenKind → Bool} (hx : Lockstep.Peeks x f)
    {k : Bool → Parser β} (hyes : f s.token.kind = true → T.Builds s p (k true) r)
    (hno : f s.token.kind = false → T.Builds s p (k false) r) : T.Builds s p (x >>= k) r := by
  refine .look (hx s) ?_
  cases hf : f s.token.kind with
  | true => exact hyes hf
  | false => exact hno hf

theorem Builds.isAt {kind : TokenKind} {k : Bool → Parser β}
    (hyes : s.token.kind = kind → T.Builds s p (k true) r)
    (hno : s.token.kind ≠ kind → T.Builds s p (k false) r) :
    T.Builds s p (Parser.isAt kind >>= k) r :=
  .peek (Lockstep.peeks_isAt kind) (fun h => hyes (beq_iff_eq.mp h))
    fun h => hno (beq_eq_false_iff_ne.mp h)

/-! ## Taking tokens -/

/-- Going on behind a token of a line, with what is known of the state there. -/
theorem Builds.takeWith {k : Token → Parser β} (hline : s.token.kind.endsLine = false)
    (h : ∀ s', s'.findings = s.findings → s.Next s' →
      T.Builds s' ⟨.ready, m, used⟩ (k s.token) r) :
    T.Builds s ⟨g, m, used⟩ (Parser.bump >>= k) r := by
  intro ps hp
  obtain ⟨hat, hon⟩ := h s.taken rfl (.of_eq rfl rfl) ps (hp.taken hline)
  rw [run_bind (run_bump_of_inLine hline)]
  exact ⟨hat, { hon with }⟩

/-- Going on behind a token of a line. -/
theorem Builds.take {k : Token → Parser β} (hline : s.token.kind.endsLine = false)
    (h : ∀ s', T.Builds s' ⟨.ready, m, used⟩ (k s.token) r) :
    T.Builds s ⟨g, m, used⟩ (Parser.bump >>= k) r := .takeWith hline fun s' _ _ => h s'

/-- Going on behind the first token of a construct. -/
theorem Builds.open {k : Token → Parser β} (hline : s.token.kind.endsLine = false)
    (h : ∀ s', T.Builds s' ⟨.ready, some s.token.span.start, []⟩ (k s.token) r) :
    T.Builds s ⟨.ready, none, []⟩ (Parser.bump >>= k) r := by
  intro ps hp
  obtain ⟨hat, hon⟩ := h s.taken ps (hp.opened hline)
  rw [run_bind (run_bump_of_inLine hline)]
  exact ⟨hat, { hon with }⟩

/-- Going on behind a token of layout. -/
theorem Builds.pass {k : Token → Parser β} (hlayout : s.token.kind.isLayout = true)
    (h : ∀ s', T.Builds s' ⟨.fresh, m, used⟩ (k s.token) r) :
    T.Builds s ⟨g, m, used⟩ (Parser.bump >>= k) r := by
  intro ps hp
  obtain ⟨hat, hon⟩ := h s.passed ps (hp.passed hlayout)
  rw [run_bind (run_bump_of_isLayout hlayout)]
  exact ⟨hat, { hon with }⟩

/-- Where a token is, taking it if it is there is taking it. -/
theorem Builds.eatThere {kind : TokenKind} {k : Bool → Parser β} (hk : s.token.kind = kind)
    (hline : kind.endsLine = false) (h : T.Builds s p (Parser.bump >>= fun _ => k true) r) :
    T.Builds s p (Parser.eat kind >>= k) r := by
  intro ps hp
  have hrun := h ps hp
  rw [run_bind (run_bump_of_inLine (hk ▸ hline))] at hrun
  rwa [run_bind (run_eat_inLine hk hline)]

theorem Builds.eat {kind : TokenKind} {k : Bool → Parser β} (hline : kind.endsLine = false)
    (hyes : ∀ s', T.Builds s' ⟨.ready, m, used⟩ (k true) r)
    (hno : s.token.kind ≠ kind → T.Builds s ⟨g, m, used⟩ (k false) r) :
    T.Builds s ⟨g, m, used⟩ (Parser.eat kind >>= k) r := by
  by_cases hk : s.token.kind = kind
  · exact .eatThere hk hline (.take (hk ▸ hline) hyes)
  · exact .look (run_eat_of_not kind hk) (hno hk)

theorem Builds.eatLayout {kind : TokenKind} {k : Bool → Parser β} (hlayout : kind.isLayout = true)
    (hyes : ∀ s', T.Builds s' ⟨.fresh, m, used⟩ (k true) r)
    (hno : s.token.kind ≠ kind → T.Builds s ⟨g, m, used⟩ (k false) r) :
    T.Builds s ⟨g, m, used⟩ (Parser.eat kind >>= k) r := by
  by_cases hk : s.token.kind = kind
  · intro ps hp
    obtain ⟨hat, hon⟩ := hyes s.passed ps (hp.passed (hk ▸ hlayout))
    rw [run_bind (run_eat_isLayout hk hlayout)]
    exact ⟨hat, { hon with }⟩
  · exact .look (run_eat_of_not kind hk) (hno hk)

/-! ## Problems -/

/-- Behind a problem a rule may go on from any stage with the same nodes or fewer. -/
theorem Builds.of_findings (p' : Stage) (hsize : s.findings.size ≠ 0)
    (h : T.Builds s p' x q) (hused : ∀ e ∈ p'.used, e ∈ p.used)
    (hbound : ∀ a ∈ p'.mark, a ∈ p.mark ∨ Boundary T.text a) : T.Builds s p x q := by
  intro ps hp
  exact h ps (hp.of_findings hsize hused fun a ha => (hbound a ha).elim (hp.bound a) id)

theorem onward_findings {findings : Array Finding} (s : ParseState)
    (hle : s.findings.size ≤ findings.size) : s.Onward { s with findings := findings } :=
  ⟨hle, Nat.le_refl _, fun _ _ => rfl, fun _ _ => rfl⟩

/-- Going on behind a parser that may record problems and does nothing else. -/
theorem Builds.checks {x : Parser Unit} {k : Unit → Parser β}
    (hx : ∃ findings, x.run s = ((), { s with findings := findings }) ∧
      s.findings.size ≤ findings.size)
    (h : ∀ s', s'.arena = s.arena → T.Builds s' p (k ()) r) : T.Builds s p (x >>= k) r := by
  intro ps hp
  obtain ⟨findings, hrun, hle⟩ := hx
  obtain ⟨hat, hon⟩ := h { s with findings := findings } rfl ps (hp.findings hle)
  rw [run_bind hrun]
  exact ⟨hat, (onward_findings s hle).trans hon⟩

/-- Going on behind a problem. -/
theorem Builds.report {k : Unit → Parser β}
    (h : ∀ s', s'.findings.size ≠ 0 → s'.token = s.token → T.Builds s' p (k ()) r) :
    T.Builds s p (Parser.report code span arg >>= k) r := by
  intro ps hp
  obtain ⟨findings, heq, hle, hsize⟩ := s.exists_reported code span arg
  have hrun : (Parser.report code span arg).run s = ((), { s with findings := findings }) :=
    congrArg ((), ·) heq
  obtain ⟨hat, hon⟩ := h { s with findings := findings } hsize rfl ps (hp.findings hle)
  rw [run_bind hrun]
  exact ⟨hat, (onward_findings s hle).trans hon⟩

theorem Builds.reportHere {k : Unit → Parser β}
    (h : ∀ s', s'.findings.size ≠ 0 → s'.token = s.token → T.Builds s' p (k ()) r) :
    T.Builds s p (Parser.reportHere code arg >>= k) r := .report h

/-- Going on behind a token that has to be there. -/
theorem Builds.expect {kind : TokenKind} {k : Bool → Parser β} (hline : kind.endsLine = false)
    (h : ∀ b s', (b = false → s'.findings.size ≠ 0) → T.Builds s' ⟨.ready, m, used⟩ (k b) r) :
    T.Builds s ⟨g, m, used⟩ (Parser.expect kind >>= k) r := by
  rw [Parser.expect, bind_assoc]
  refine .eat hline (fun s' => ?_) fun _ => ?_
  · rw [if_pos rfl, pure_bind]
    exact h true s' fun hb => by cases hb
  · rw [if_neg Bool.false_ne_true, bind_assoc]
    refine .reportHere fun s' hsize _ => ?_
    rw [pure_bind]
    exact .of_findings _ hsize (h false s' fun _ => hsize) (fun _ => id) fun _ => .inl

/-- What is left of a line may be skipped behind a problem. -/
theorem builds_skipLine (hsize : s.findings.size ≠ 0) (g' : Gap) :
    T.Builds s ⟨g, m, used⟩ skipLine fun _ => ⟨g', m, used⟩ := by
  have hloop (fuel : Nat) (s : ParseState) (hsize : s.findings.size ≠ 0) (g : Gap) :
      T.Builds s ⟨g, m, used⟩ (skipLineUpTo fuel) fun _ => ⟨g', m, used⟩ := by
    induction fuel generalizing s g with
    | zero =>
      exact .of_findings ⟨g', m, used⟩ hsize (.pure rfl) (fun _ => id) fun _ => .inl
    | succ fuel ih =>
      refine .peek Lockstep.peeks_atLineEnd (fun _ => ?_) fun hline => ?_
      · exact .of_findings ⟨g', m, used⟩ hsize (.pure rfl) (fun _ => id) fun _ => .inl
      · exact .takeWith hline fun s' hfindings _ => ih s' (hfindings ▸ hsize) .ready
  exact .remaining fun n => hloop (n + 1) s hsize g

/-! ## Making nodes -/

theorem builds_finish (slot : ChildSlot) (data : NodeData) (hsuits : data.suits slot = true)
    (hslots : data.slots = used) :
    T.Builds s ⟨g, some a, used⟩ (Parser.finish data a) fun i => ⟨.closed, some a, [(slot, i)]⟩ :=
  fun _ hp => ⟨hp.add slot hslots hsuits, onward_add s _ _⟩

/-- A node that is made at the end of a line. -/
theorem builds_finish_fresh (slot : ChildSlot) (data : NodeData) (hsuits : data.suits slot = true)
    (hslots : data.slots = used) :
    T.Builds s ⟨.fresh, some a, used⟩ (Parser.finish data a) fun i => ⟨.fresh, some a, [(slot, i)]⟩ :=
  fun _ hp => by
    obtain ⟨sound, suits, bound, tidy, -, marked⟩ := hp.add slot hslots hsuits
    exact ⟨⟨sound, suits, bound, tidy, hp.gap, marked⟩, onward_add s _ _⟩

/-- A malformed node stands anywhere, but not without a problem. -/
theorem builds_malformed (slot : ChildSlot) (hsize : s.findings.size ≠ 0) (ha : Boundary T.text a)
    (g' : Gap) :
    T.Builds s p (Parser.finish .malformed a) fun i => ⟨g', some a, [(slot, i)]⟩ := by
  refine .of_findings ⟨.closed, some a, []⟩ hsize (fun ps hp => ?_) nofun fun b hb => ?_
  · obtain ⟨hat, hon⟩ := builds_finish slot .malformed rfl rfl ps hp
    exact ⟨hat.of_findings hsize (fun _ => id) hat.bound, hon⟩
  · rw [← Option.mem_some.mp hb]
    exact .inr ha

end Rules
end Source
end LiveCheck
