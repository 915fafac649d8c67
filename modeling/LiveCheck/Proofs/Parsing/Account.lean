import LiveCheck.Proofs.Parsing.Blocks
import LiveCheck.Proofs.Parsing.Forest
import LiveCheck.Proofs.Scanning.Places

/-!
# What a parse accounts for

Along a parse the nodes that wait for a parent are the roots of a forest. As long as there is no
problem, the names and the values in the forest show the tokens that were taken, one after the
other, and only reserved words, symbols and layout are passed over.
-/

namespace LiveCheck

/-- Whether the node is a name or a value. -/
def NodeData.isLeaf : NodeData → Bool
  | name _ | constant .. => true
  | _ => false

private theorem NodeData.rename_id (data : NodeData) : data.rename id = data := by
  cases data <;> simp [rename]

namespace Arena

/-- Tokens that stand for a node, or one token that stands for none. -/
inductive Part (a : Arena) : List Token → Option NodeId → Prop
  | passed {token : Token} (h : token.kind.isContent = false) : a.Part [token] none
  | name {token : Token} {i : NodeId} {atom : Nat} (hk : token.kind = .name)
    (hdata : a.data? i = some (.name atom)) (htext : a.names.names[atom]? = some token.text)
    (hspan : a.span i = token.span) : a.Part [token] (some i)
  | value {taken : List Token} {first last : Token} {i : NodeId} {kind : ConstantKind}
    {text : Option String} (hk : ∀ token ∈ taken, token.kind ≠ .name)
    (hfirst : taken.head? = some first) (hlast : taken.getLast? = some last)
    (hdata : a.data? i = some (.constant kind text))
    (hspan : a.span i = ⟨first.span.start, last.span.stop⟩) : a.Part taken (some i)

/-- Whether the node is a name or a value. -/
def isLeaf (a : Arena) (i : NodeId) : Bool := ((a.data? i).map NodeData.isLeaf).getD false

/-- The names and values among the nodes stand for the tokens, in order. -/
def Shows (a : Arena) (tokens : List Token) (ns : List NodeId) : Prop :=
  ∃ parts : List (List Token × Option NodeId), tokens = parts.flatMap Prod.fst ∧
    ns.filter a.isLeaf = parts.filterMap Prod.snd ∧ ∀ part ∈ parts, a.Part part.1 part.2

variable {a b : Arena} {tokens taken : List Token} {ns ms : List NodeId} {i : NodeId}

private theorem Part.mono {part : Option NodeId} (h : a.Part taken part) (hext : a.Extends b)
    (hspan : ∀ j < a.size, b.span j = a.span j) : b.Part taken part := by
  cases h with
  | passed h => exact .passed h
  | name hk hdata htext hsame =>
    exact .name hk (hext.data? _ _ hdata) (hext.names _ _ htext)
      ((hspan _ (lt_size_of_data? hdata)).trans hsame)
  | value hk hfirst hlast hdata hsame =>
    exact .value hk hfirst hlast (hext.data? _ _ hdata)
      ((hspan _ (lt_size_of_data? hdata)).trans hsame)

private theorem Shows.mono (h : a.Shows tokens ns) (hext : a.Extends b)
    (hspan : ∀ j < a.size, b.span j = a.span j) (hdata : ∀ j ∈ ns, b.data? j = a.data? j) :
    b.Shows tokens ns := by
  obtain ⟨parts, htokens, hleaves, hparts⟩ := h
  refine ⟨parts, htokens, ?_, fun part hpart => (hparts part hpart).mono hext hspan⟩
  rw [← hleaves]
  exact List.filter_congr fun j hj => by rw [isLeaf, isLeaf, hdata j hj]

private theorem Shows.pass {token : Token} (h : a.Shows tokens ns)
    (hk : token.kind.isContent = false) :
    a.Shows (tokens ++ [token]) ns := by
  obtain ⟨parts, htokens, hleaves, hparts⟩ := h
  refine ⟨parts ++ [([token], none)], by simp [htokens], by simp [hleaves], fun part hpart => ?_⟩
  rcases List.mem_append.mp hpart with hpart | hpart
  · exact hparts part hpart
  · rw [List.mem_singleton.mp hpart]
    exact .passed hk

private theorem Shows.leaf (h : a.Shows tokens ns) (hpart : a.Part taken (some i)) :
    a.Shows (tokens ++ taken) (ns ++ [i]) := by
  obtain ⟨parts, htokens, hleaves, hparts⟩ := h
  have hleaf : a.isLeaf i = true := by
    cases hpart with
    | name _ hdata _ _ => rw [isLeaf, hdata]; rfl
    | value _ _ _ hdata _ => rw [isLeaf, hdata]; rfl
  refine ⟨parts ++ [(taken, some i)], by simp [htokens], by simp [hleaves, hleaf],
    fun part hpart' => ?_⟩
  rcases List.mem_append.mp hpart' with hpart' | hpart'
  · exact hparts part hpart'
  · rw [List.mem_singleton.mp hpart']
    exact hpart

private theorem Shows.inner (h : a.Shows tokens (ns ++ ms)) (hleaf : a.isLeaf i = false) :
    a.Shows tokens (ns ++ i :: ms) := by
  obtain ⟨parts, htokens, hleaves, hparts⟩ := h
  refine ⟨parts, htokens, ?_, hparts⟩
  rw [← hleaves, List.filter_append, List.filter_append, List.filter_cons, hleaf]
  rfl

end Arena

/-! ## The state of a parse -/

namespace ParseState

variable {s t : ParseState} {tokens : Array Token} {ps qs : List NodeId} {data : NodeData}

/-- The nodes that wait for a parent, `ps`, are the roots of a forest. Without problems, its names
and values show the tokens that were taken, and no node is malformed. -/
structure Accounted (tokens : Array Token) (s : ParseState) (ps : List NodeId) : Prop where
  tokens_eq : s.tokens = tokens
  cursor_lt : s.cursor < tokens.size
  trees : ∃ ns, s.arena.Forest ps ns ∧ ns.Nodup ∧ (s.findings.size = 0 →
    s.arena.Shows (tokens.toList.take s.cursor) ns ∧ ∀ i ∈ ns, s.arena.data? i ≠ some .malformed)

private theorem Accounted.of_findings (h : s.Accounted tokens ps) {findings : Array Finding}
    (hle : s.findings.size ≤ findings.size) :
    ({ s with findings := findings } : ParseState).Accounted tokens ps := by
  obtain ⟨htokens, hcursor, ns, hforest, hnodup, hclean⟩ := h
  refine ⟨htokens, hcursor, ns, hforest, hnodup, fun hsize => hclean ?_⟩
  have hsize : findings.size = 0 := hsize
  omega

private theorem Accounted.add (h : s.Accounted tokens (ps ++ data.children))
    (hdata : data.isInner = true ∨ data = .malformed ∧ s.findings.size ≠ 0) (span : Span) :
    ({ s with arena := (s.arena.add data span).2 } : ParseState).Accounted tokens
      (ps ++ [(s.arena.add data span).1]) := by
  obtain ⟨htokens, hcursor, ns, hforest, hnodup, hclean⟩ := h
  obtain ⟨ns₁, ns₂, rfl, hforest₁, hforest₂⟩ := hforest.of_append
  obtain ⟨hforest', hnodup'⟩ := hforest₁.add hforest₂ hnodup span
  refine ⟨htokens, hcursor, _, hforest', hnodup', fun hsize => ?_⟩
  obtain ⟨hshows, hformed⟩ := hclean hsize
  have hinner : data.isInner = true := hdata.elim id fun hbad => absurd hsize hbad.2
  have hnew := s.arena.data?_add data span
  have hold (j : NodeId) (hj : j ∈ ns₁ ++ ns₂) :
      (s.arena.add data span).2.data? j = s.arena.data? j :=
    Arena.data?_add_of_lt (hforest.lt_size hj) data span
  constructor
  · refine (hshows.mono (s.arena.extends_add data span)
      (fun j hj => Arena.span_add_of_lt hj data span) hold).inner ?_
    rw [Arena.isLeaf, hnew]
    cases data <;> first | rfl | cases hinner
  · intro j hj
    rcases List.mem_append.mp hj with hj | hj
    · rw [hold j (List.mem_append_left _ hj)]
      exact hformed j (List.mem_append_left _ hj)
    · rcases List.mem_cons.mp hj with rfl | hj
      · intro hbad
        rw [Option.some.inj (hnew.symm.trans hbad)] at hinner
        cases hinner
      · rw [hold j (List.mem_append_right _ hj)]
        exact hformed j (List.mem_append_right _ hj)

private theorem Accounted.forget (h : s.Accounted tokens (ps ++ qs)) (hsize : s.findings.size ≠ 0) :
    s.Accounted tokens ps := by
  obtain ⟨htokens, hcursor, ns, hforest, hnodup, -⟩ := h
  obtain ⟨ns₁, ns₂, rfl, hforest₁, -⟩ := hforest.of_append
  exact ⟨htokens, hcursor, ns₁, hforest₁, hnodup.sublist (List.sublist_append_left _ _),
    fun hzero => absurd hzero hsize⟩

private theorem Accounted.elements {i : NodeId} {elts : List NodeId}
    (h : s.Accounted tokens (ps ++ [i]))
    (hdata : s.arena.data? i = some (.tuple elts)) : s.Accounted tokens (ps ++ elts) := by
  obtain ⟨htokens, hcursor, ns, hforest, hnodup, hclean⟩ := h
  obtain ⟨ns₁, ns₂, rfl, hforest₁, hforest₂⟩ := hforest.of_append
  cases hforest₂ with
  | @cons _ _ ms _ data hdata' _ hbelow hrest =>
    cases hrest
    cases Option.some.inj (hdata.symm.trans hdata')
    rw [List.append_nil] at hnodup hclean
    have hsublist : (ns₁ ++ ms).Sublist (ns₁ ++ i :: ms) :=
      (List.sublist_cons_self i ms).append_left ns₁
    refine ⟨htokens, hcursor, ns₁ ++ ms, hforest₁.append hbelow, hnodup.sublist hsublist,
      fun hsize => ?_⟩
    obtain ⟨⟨parts, htaken, hleaves, hparts⟩, hformed⟩ := hclean hsize
    refine ⟨⟨parts, htaken, ?_, hparts⟩, fun j hj => hformed j (hsublist.subset hj)⟩
    have hleaf : s.arena.isLeaf i = false := by rw [Arena.isLeaf, hdata]; rfl
    rw [← hleaves, List.filter_append, List.filter_append, List.filter_cons, hleaf]
    rfl

private theorem Accounted.leaf (h : s.Accounted tokens ps) {names : NameTable} {span : Span}
    {taken : List Token} (htokens : t.tokens = tokens) (hcursor : t.cursor < tokens.size)
    (hfindings : t.findings = s.findings) (hnames : s.arena.Extends { s.arena with names := names })
    (harena : t.arena = (({ s.arena with names := names } : Arena).add data span).2)
    (hchildren : data.children = []) (hdata : data ≠ .malformed)
    (htaken : tokens.toList.take t.cursor = tokens.toList.take s.cursor ++ taken)
    (hpart : t.arena.Part taken (some s.arena.size)) :
    t.Accounted tokens (ps ++ [s.arena.size]) := by
  obtain ⟨-, -, ns, hforest, hnodup, hclean⟩ := h
  have hforest : ({ s.arena with names := names } : Arena).Forest ps ns :=
    hforest.frame hnodup (fun _ _ => rfl) fun _ _ _ => rfl
  have hbelow : ({ s.arena with names := names } : Arena).Forest data.children [] := by
    rw [hchildren]
    exact .nil
  obtain ⟨hforest', hnodup'⟩ := hforest.add hbelow (by rwa [List.append_nil]) span
  refine ⟨htokens, hcursor, ns ++ [s.arena.size], harena ▸ hforest', hnodup', fun hsize => ?_⟩
  rw [hfindings] at hsize
  obtain ⟨hshows, hformed⟩ := hclean hsize
  have hold (j : NodeId) (hj : j ∈ ns) : t.arena.data? j = s.arena.data? j := by
    rw [harena]
    exact Arena.data?_add_of_lt (a := { s.arena with names := names }) (hforest.lt_size hj) data span
  constructor
  · rw [htaken]
    refine (hshows.mono (b := t.arena) ?_ (fun j hj => ?_) hold).leaf hpart
    · rw [harena]
      exact hnames.trans (Arena.extends_add _ data span)
    · rw [harena]
      exact Arena.span_add_of_lt (a := { s.arena with names := names }) hj data span
  · intro j hj
    rcases List.mem_append.mp hj with hj | hj
    · rw [hold j hj]
      exact hformed j hj
    · rw [List.mem_singleton.mp hj, harena]
      have hnew := Arena.data?_add { s.arena with names := names } data span
      exact fun heq => hdata (Option.some.inj (hnew.symm.trans heq))

end ParseState

namespace Lockstep

open ParseState (Accounted)

variable {tokens : Array Token} {s : ParseState} {ps : List NodeId}

theorem stopping_of_ordered (h : Token.Ordered tokens) : ParseState.Stopping tokens :=
  fun token htoken hline => Nat.ne_of_gt (Nat.zero_lt_of_lt (h.size token htoken hline))

/-- Tokens in order end with the end of the text. -/
theorem ended_of_ordered (h : Token.Ordered tokens) : ParseState.Ended tokens := by
  obtain ⟨before, stop, heq, -⟩ := h.last
  rw [ParseState.Ended, ← Array.getLast?_toList, heq, List.getLast?_concat]
  rfl

section

variable (ht : Token.Ordered tokens)
include ht

private theorem accounted_take (h : s.Accounted tokens ps) (hline : s.token.kind.endsLine = false)
    (hcontent : s.token.kind.isContent = false ∨ s.findings.size ≠ 0) :
    s.taken.Accounted tokens ps := by
  obtain ⟨htokens, hcursor, ns, hforest, hnodup, hclean⟩ := h
  subst htokens
  have hne : s.token.kind ≠ .endOfFile := fun heof => by rw [heof] at hline; cases hline
  refine ⟨rfl, ParseState.succ_lt_size (ended_of_ordered ht) hcursor hne, ns, hforest, hnodup, fun hsize => ?_⟩
  obtain ⟨hshows, hformed⟩ := hclean hsize
  refine ⟨?_, hformed⟩
  show s.arena.Shows (s.tokens.toList.take (s.cursor + 1)) ns
  rw [ParseState.take_succ hcursor]
  exact hshows.pass (hcontent.elim id fun hbad => absurd hsize hbad)

private theorem accounted_pass (h : s.Accounted tokens ps)
    (hlayout : s.token.kind.isLayout = true) :
    s.passed.Accounted tokens ps := by
  obtain ⟨htokens, hcursor, ns, hforest, hnodup, hclean⟩ := h
  subst htokens
  have hne : s.token.kind ≠ .endOfFile := fun heof => by rw [heof] at hlayout; cases hlayout
  have hcontent : s.token.kind.isContent = false := by
    cases hk : s.token.kind <;> rw [hk] at hlayout <;> first | rfl | cases hlayout
  refine ⟨rfl, ParseState.succ_lt_size (ended_of_ordered ht) hcursor hne, ns, hforest, hnodup, fun hsize => ?_⟩
  obtain ⟨hshows, hformed⟩ := hclean hsize
  refine ⟨?_, hformed⟩
  show s.arena.Shows (s.tokens.toList.take (s.cursor + 1)) ns
  rw [ParseState.take_succ hcursor]
  exact hshows.pass hcontent

private theorem accounted_name (h : s.Accounted tokens ps) :
    (Parser.name.run s).2.Accounted tokens (ps ++ [(Parser.name.run s).1]) := by
  by_cases hk : s.token.kind = .name
  · have hcursor := h.cursor_lt
    have htokens := h.tokens_eq
    subst htokens
    rw [Parser.run_name hk]
    refine h.leaf rfl (ParseState.succ_lt_size (ended_of_ordered ht) hcursor (by rw [hk]; nofun)) rfl
      (s.arena.extends_insert s.token.text) rfl rfl nofun (ParseState.take_succ hcursor) ?_
    refine .name hk (Arena.data?_add _ _ _) ?_ (Arena.span_add _ _ _)
    exact Arena.names_insert _ _
  · obtain ⟨findings, heq, hle, hsize⟩ :=
      s.exists_reported Code.expectedName s.token.span none
    rw [Parser.run_name_of_ne hk, heq]
    have hnone : ps ++ NodeData.malformed.children = ps := List.append_nil ps
    have hreported := h.of_findings hle
    rw [← hnone] at hreported
    exact hreported.add (.inr ⟨rfl, hsize⟩) _

private theorem accounted_constant (h : s.Accounted tokens ps)
    (hline : s.token.kind.endsLine = false)
    (hname : s.token.kind ≠ .name) (kind : ConstantKind) :
    ((Parser.constant kind).run s).2.Accounted tokens (ps ++ [((Parser.constant kind).run s).1]) := by
  have hcursor := h.cursor_lt
  have htokens := h.tokens_eq
  subst htokens
  have hne : s.token.kind ≠ .endOfFile := fun heof => by rw [heof] at hline; cases hline
  rw [Parser.run_constant hline, Parser.run_finish]
  refine h.leaf rfl (ParseState.succ_lt_size (ended_of_ordered ht) hcursor hne) rfl
    (.refl s.arena) rfl rfl nofun (ParseState.take_succ hcursor) ?_
  have hlast : [s.token].getLast? = some s.token := rfl
  refine .value (fun token htoken => ?_) rfl hlast (Arena.data?_add _ _ _)
    ((Arena.span_add _ _ _).trans ?_)
  · rw [List.mem_singleton.mp htoken]
    exact hname
  · have horder := ht.order s.token (ParseState.token_mem hne)
    show (⟨s.token.span.start, max s.token.span.stop s.token.span.start⟩ : Span) = _
    rw [Nat.max_eq_left horder]

private theorem accounted_strings (h : s.Accounted tokens ps)
    (hk : s.token.kind = .string ∨ s.token.kind = .bytes) :
    (Parser.strings.run s).2.Accounted tokens (ps ++ [(Parser.strings.run s).1]) := by
  have hcursor := h.cursor_lt
  have htokens := h.tokens_eq
  subst htokens
  have hliterals := ParseState.literals_cons hcursor hk
  obtain ⟨last, hlast⟩ : ∃ last, s.literals.getLast? = some last := by
    rw [hliterals, List.getLast?_cons]
    exact ⟨_, rfl⟩
  have hmem : ∀ token ∈ s.literals, token ∈ s.tokens := fun token htoken =>
    Array.mem_toList_iff.mp (List.mem_of_mem_drop ((List.takeWhile_sublist _).subset htoken))
  have hordered : s.literals.Pairwise Token.Precedes :=
    ht.ordered.sublist ((List.takeWhile_sublist _).trans (List.drop_sublist _ _))
  have hfirst : s.literals.head? = some s.token := by rw [hliterals]; rfl
  have horder : ∀ token ∈ s.literals, token.span.start ≤ token.span.stop :=
    fun token htoken => ht.order token (hmem token htoken)
  have hspan : s.token.span.start ≤ last.span.stop :=
    Nat.le_trans (Token.start_le_start hordered horder hfirst (List.mem_of_getLast? hlast))
      (horder last (List.mem_of_getLast? hlast))
  rw [Parser.run_strings (ended_of_ordered ht) hcursor, Parser.run_finish]
  refine h.leaf rfl (ParseState.add_literals_lt (ended_of_ordered ht) hcursor) rfl
    (.refl s.arena) rfl rfl nofun s.take_literals ?_
  refine .value (fun token htoken hname => ?_) hfirst hlast (Arena.data?_add _ _ _)
    ((Arena.span_add _ _ _).trans ?_)
  · rcases ParseState.isLiteral_of_mem htoken with hkind | hkind
    all_goals
      rw [hname] at hkind
      cases hkind
  · show (⟨s.token.span.start,
      max ((s.literals.getLast?.map (·.span.stop)).getD s.lastStop) s.token.span.start⟩ : Span) = _
    rw [hlast]
    exact congrArg _ (Nat.max_eq_left hspan)

end

/-- A single run, beside itself: what is made of the tokens is accounted for. -/
def account (tokens : Array Token) (ht : Token.Ordered tokens) : Lockstep where
  Rel s t ps := t = s ∧ s.Accounted tokens ps
  node := id
  shift := 0
  Start _ := True
  tokens := tokens
  tokens_eq h := h.2.tokens_eq
  cursor_lt h := h.2.cursor_lt
  remaining_le h := Nat.le_of_eq (by rw [h.1])
  problems h h' := by rw [h.1, h'.1, Nat.add_comm]
  kind h := by rw [h.1]
  text h := by rw [h.1]
  nextKind h _ := by rw [h.1]
  start h := ⟨by rw [h.1]; rfl, trivial⟩
  stopping := stopping_of_ordered ht
  ended := ended_of_ordered ht
  take h hline hcontent := ⟨by rw [h.1], accounted_take ht h.2 hline hcontent⟩
  report {s _ _ code} h _ arg := by
    obtain ⟨findings, heq, hle, -⟩ := s.exists_reported code s.token.span arg
    refine ⟨by rw [h.1], ?_⟩
    rw [heq]
    exact h.2.of_findings hle
  checkTarget {s _ _ i} h _ := by
    obtain ⟨findings, heq, hle⟩ := Parser.exists_checkTarget i s
    refine ⟨by rw [h.1]; rfl, ?_⟩
    rw [heq]
    exact h.2.of_findings hle
  checkPlace {s _ _ i} h _ := by
    obtain ⟨findings, heq, hle⟩ := Parser.exists_checkPlace i s
    refine ⟨by rw [h.1]; rfl, ?_⟩
    rw [heq]
    exact h.2.of_findings hle
  name h _ := ⟨by rw [h.1]; rfl, by rw [h.1], accounted_name ht h.2⟩
  constant h hline hname kind := ⟨by rw [h.1]; rfl, by rw [h.1], accounted_constant ht h.2 hline hname kind⟩
  strings h hk := ⟨by rw [h.1]; rfl, by rw [h.1], accounted_strings ht h.2 hk⟩
  finish {s _ _ data a} h _ hdata := by
    rw [h.1, NodeData.rename_id]
    exact ⟨rfl, rfl, h.2.add hdata _⟩
  forget h hsize := ⟨h.1, h.2.forget hsize⟩
  tuple {s _ _ i} h := by
    by_cases htuple : ∃ elts, s.arena.data? i = some (.tuple elts)
    · obtain ⟨elts, hdata⟩ := htuple
      refine .inl ⟨elts, hdata, ?_, h.1, h.2.elements hdata⟩
      rw [h.1, List.map_id]
      exact hdata
    · have hnone (elts : List NodeId) : s.arena.data? i ≠ some (.tuple elts) :=
        fun hdata => htuple ⟨elts, hdata⟩
      exact .inr ⟨hnone, h.1 ▸ hnone⟩

theorem account_crossesLines (ht : Token.Ordered tokens) : (account tokens ht).CrossesLines :=
  fun h hlayout => ⟨by rw [h.1], accounted_pass ht h.2 hlayout⟩

end Lockstep

/-! ## The whole parse -/

/-- The state in which the parse of a text begins. -/
def ParseState.start (text : String) : ParseState :=
  ⟨(scan text).tokens, 0, 0, .empty, (scan text).findings⟩

variable {text : String} {body : List NodeId}

private theorem parse_eq {root : NodeId} {done : ParseState}
    (h : (Parser.file text.utf8ByteSize).run (.start text) = (root, done)) :
    parse text =
      ⟨⟨done.arena, root, .ofText text⟩, done.findings.toList.mergeSort Finding.notAfter⟩ :=
  congrArg (fun r => (⟨⟨r.2.arena, r.1, .ofText text⟩,
    r.2.findings.toList.mergeSort Finding.notAfter⟩ : Parse)) h

/-- The root that is added when the statements of a text have been read. -/
theorem run_file {s : ParseState}
    (h : (Parser.moduleUpTo (ParseState.start text).remaining).run (.start text) = (body, s)) :
    (Parser.file text.utf8ByteSize).run (.start text) =
      ((s.arena.add (.root body) ⟨0, text.utf8ByteSize⟩).1,
        { s with arena := (s.arena.add (.root body) ⟨0, text.utf8ByteSize⟩).2 }) := by
  have hremaining : Parser.remaining.run (.start text) =
      ((ParseState.start text).remaining, .start text) := rfl
  exact (Parser.run_bind hremaining).trans (Parser.run_bind h)

/-- The parse of a text whose statements have been read. -/
theorem parse_of_module {s : ParseState}
    (h : (Parser.moduleUpTo (ParseState.start text).remaining).run (.start text) = (body, s)) :
    parse text =
      ⟨⟨(s.arena.add (.root body) ⟨0, text.utf8ByteSize⟩).2,
        (s.arena.add (.root body) ⟨0, text.utf8ByteSize⟩).1, .ofText text⟩,
        s.findings.toList.mergeSort Finding.notAfter⟩ :=
  parse_eq (run_file h)

/-- At the start of a parse no node waits. -/
theorem accounted_start (text : String) : (ParseState.start text).Accounted (scan text).tokens [] := by
  obtain ⟨before, stop, hlast, -⟩ := (ordered_scan text).last
  refine ⟨rfl, ?_, [], .nil, .nil, fun _ => ⟨⟨[], rfl, rfl, nofun⟩, nofun⟩⟩
  show 0 < (scan text).tokens.size
  rw [← Array.length_toList, hlast, List.length_append]
  exact Nat.succ_pos _

/-- The token that ends the text is the last one. -/
theorem cursor_of_endOfFile {s : ParseState} (ht : Token.Ordered s.tokens)
    (hlt : s.cursor < s.tokens.size) (hend : s.token.kind = .endOfFile) :
    s.cursor + 1 = s.tokens.size := by
  obtain ⟨before, stop, hlast, hbefore⟩ := ht.last
  have hsize : s.tokens.size = before.length + 1 := by
    rw [← Array.length_toList, hlast, List.length_append, List.length_singleton]
  refine Nat.le_antisymm hlt (Nat.not_lt.mp fun hless => ?_)
  have hget : s.tokens.toList[s.cursor]? = some s.token := by
    rw [Array.getElem?_toList, Array.getElem?_eq_getElem hlt, ParseState.token_eq hlt]
  rw [hlast, List.getElem?_append_left (by omega)] at hget
  exact hbefore _ (List.mem_of_getElem? hget) hend

private theorem take_of_endOfFile {s : ParseState} (ht : Token.Ordered s.tokens)
    (hlt : s.cursor < s.tokens.size) (hend : s.token.kind = .endOfFile) :
    s.tokens.toList.take s.cursor = s.tokens.toList.dropLast := by
  rw [List.dropLast_eq_take, Array.length_toList, ← cursor_of_endOfFile ht hlt hend,
    Nat.add_sub_cancel]

/-- The root of a parse has no parent, and all nodes below it form its tree. Without problems, its
names and values show the tokens of the text, and no node is malformed. -/
theorem accounted_parse (text : String) :
    let tree := (parse text).tree
    ∃ ns, tree.arena.Forest [tree.root] ns ∧ ns.Nodup ∧ tree.arena.parent? tree.root = none ∧
      ((parse text).findings = [] →
        tree.arena.Shows (scan text).tokens.toList.dropLast ns ∧
          ∀ i ∈ ns, tree.arena.data? i ≠ some .malformed) := by
  have ht := ordered_scan text
  have hL : (Lockstep.account _ ht).CrossesLines := Lockstep.account_crossesLines ht
  have hstart := accounted_start text
  have hrel : (Lockstep.account _ ht).Rel (.start text) (.start text) [] := ⟨rfl, hstart⟩
  have hfuel : (scan text).tokens.size ≤
      (ParseState.start text).remaining + (ParseState.start text).cursor := Nat.le_add_right _ _
  obtain ⟨_, ⟨-, rfl⟩, ⟨-, hdone⟩, -⟩ := Parser.abreast_moduleUpTo hL hfuel hfuel [] hrel
  have hend := Parser.kind_moduleUpTo hL hrel hfuel
  generalize hmodule : (Parser.moduleUpTo (ParseState.start text).remaining).run (.start text) =
    result at hdone hend
  obtain ⟨body, s⟩ := result
  have hadded : ParseState.Accounted (scan text).tokens
      { s with arena := (s.arena.add (.root body) ⟨0, text.utf8ByteSize⟩).2 }
      ([] ++ [(s.arena.add (.root body) ⟨0, text.utf8ByteSize⟩).1]) := hdone.add (.inl rfl) _
  obtain ⟨-, -, ns, hforest, hnodup, hclean⟩ := hadded
  have htokens : s.tokens = (scan text).tokens := hdone.tokens_eq
  rw [parse_of_module hmodule]
  refine ⟨ns, hforest, hnodup, Arena.parent?_add _ _ _, fun hnone => ?_⟩
  have hsize : s.findings.size = 0 := by
    have hlength : (s.findings.toList.mergeSort Finding.notAfter).length =
        s.findings.toList.length := List.length_mergeSort _
    rw [show s.findings.toList.mergeSort Finding.notAfter = [] from hnone] at hlength
    exact hlength.symm.trans (Array.length_toList ..)
  obtain ⟨hshows, hformed⟩ := hclean hsize
  refine ⟨?_, hformed⟩
  rw [← htokens] at ht hshows ⊢
  rwa [← take_of_endOfFile ht (htokens ▸ hdone.cursor_lt) hend]

end LiveCheck
