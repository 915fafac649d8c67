import LiveCheck.Proofs.Parsing.Account
import LiveCheck.Proofs.Scanning.Parts

/-!
# A run among the tokens of a longer one

The tokens of one run stand, some bytes later, among those of another. As long as the first run
stays among them, the second one does the same behind what it has done before: it makes the same
nodes with later numbers and finds the same problems at later places.
-/

namespace LiveCheck

/-- The problems that the parser finds. -/
def Code.ofParser : List Nat := invalidAssignmentTarget :: ofGrammar

theorem Code.not_mem_ofParser : ∀ code ∈ ofScanner, code ∉ ofParser := by decide

/-! ## Arenas -/

namespace Arena

/-- The same node in both arenas, `k` bytes later in the second; the number of a node changes by
`f`, and that of a name may change. -/
structure SameNode (a b : Arena) (f : NodeId → NodeId) (k : Nat) (i : NodeId) : Prop where
  data : ∀ data, a.data? i = some data → data.isName = false →
    b.data? (f i) = some (data.rename f)
  name : ∀ atom, a.data? i = some (.name atom) → ∃ atom' text, b.data? (f i) = some (.name atom') ∧
    a.names.names[atom]? = some text ∧ b.names.names[atom']? = some text
  span : b.span (f i) = (a.span i).moved k

/-- The nodes of the first arena come behind those of another one in the second. -/
structure Follows (base : Arena) (k : Nat) (a b : Arena) : Prop where
  size : b.size = a.size + base.size
  node : ∀ i < a.size, a.SameNode b (· + base.size) k i
  behind : base.Extends b
  spans : ∀ i < base.size, b.span i = base.span i
  children : ∀ i data, a.data? i = some data → ∀ c ∈ data.children, c < i

variable {a b a' b' base : Arena} {k : Nat} {i : NodeId} {f : NodeId → NodeId} {data : NodeData}

private theorem data?_of_lt (h : i < a.size) : ∃ data, a.data? i = some data := by
  refine ⟨a.nodes[i].data, ?_⟩
  rw [data?, Array.getElem?_eq_getElem h]
  rfl

private theorem Extends.data_eq (h : a.Extends a') (hi : i < a.size)
    (hdata : a'.data? i = some data) :
    a.data? i = some data := by
  obtain ⟨found, hfound⟩ := data?_of_lt hi
  rwa [hfound, ← h.data? i found hfound]

/-- A node is the same in arenas that have grown. -/
theorem SameNode.mono (h : a.SameNode b f k i) (hi : i < a.size) (ha : a.Extends a')
    (hb : b.Extends b') (hspan : a'.span i = a.span i) (hspan' : b'.span (f i) = b.span (f i)) :
    a'.SameNode b' f k i where
  data data hdata hname := hb.data? _ _ (h.data data (ha.data_eq hi hdata) hname)
  name atom hdata := by
    obtain ⟨atom', text, hdata', htext, htext'⟩ := h.name atom (ha.data_eq hi hdata)
    exact ⟨atom', text, hb.data? _ _ hdata', ha.names _ _ htext, hb.names _ _ htext'⟩
  span := by rw [hspan, hspan', h.span]

theorem Follows.refl (base : Arena) (k : Nat) : Follows base k .empty base where
  size := (Nat.zero_add _).symm
  node := nofun
  behind := .refl base
  spans _ _ := rfl
  children := nofun

private theorem Follows.grow (h : Follows base k a b) (ha : a.Extends a') (hb : b.Extends b')
    (hspan : ∀ i < a.size, a'.span i = a.span i) (hspan' : ∀ i < b.size, b'.span i = b.span i)
    (hsize : a'.size = a.size + 1) (hsize' : b'.size = b.size + 1)
    (hnew : a'.SameNode b' (· + base.size) k a.size) (hdata : a'.data? a.size = some data)
    (hchildren : ∀ c ∈ data.children, c < a.size) : Follows base k a' b' where
  size := by rw [hsize, hsize', h.size, Nat.add_right_comm]
  node i hi := by
    rcases Nat.lt_succ_iff_lt_or_eq.mp (hsize ▸ hi) with hi | rfl
    · refine (h.node i hi).mono hi ha hb (hspan i hi) (hspan' _ ?_)
      rw [h.size]
      exact Nat.add_lt_add_right hi _
    · exact hnew
  behind := h.behind.trans hb
  spans i hi := (hspan' i (h.size ▸ Nat.lt_add_left _ hi)).trans (h.spans i hi)
  children i found hfound := by
    have hi := lt_size_of_data? hfound
    rcases Nat.lt_succ_iff_lt_or_eq.mp (hsize ▸ hi) with hi | rfl
    · exact h.children i found (ha.data_eq hi hfound)
    · cases Option.some.inj (hdata.symm.trans hfound)
      exact hchildren

private theorem Follows.add (h : Follows base k a b) (hname : data.isName = false)
    (hchildren : ∀ c ∈ data.children, c < a.size) (span : Span) :
    Follows base k (a.add data span).2 (b.add (data.rename (· + base.size)) (span.moved k)).2 := by
  have hdata : (a.add data span).2.data? a.size = some data := data?_add a data span
  have hdata' : (b.add (data.rename (· + base.size)) (span.moved k)).2.data? b.size =
      some (data.rename (· + base.size)) := data?_add b _ _
  refine h.grow (a.extends_add _ _) (b.extends_add _ _) (fun i hi => span_add_of_lt hi _ _)
    (fun i hi => span_add_of_lt hi _ _) (a.size_add _ _) (b.size_add _ _)
    ⟨fun found hfound _ => ?_, fun atom hatom => ?_, ?_⟩ hdata hchildren
  · cases Option.some.inj (hdata.symm.trans hfound)
    rw [← h.size]
    exact hdata'
  · cases Option.some.inj (hdata.symm.trans hatom)
    cases hname
  · have hspan : (a.add data span).2.span a.size = span := span_add a data span
    have hspan' : (b.add (data.rename (· + base.size)) (span.moved k)).2.span b.size =
        span.moved k := span_add b _ _
    rw [hspan, ← h.size]
    exact hspan'

private theorem Follows.named (h : Follows base k a b) (token : Token) :
    Follows base k (Parser.named a token).2 (Parser.named b (token.moved k)).2 := by
  have hdata : (Parser.named a token).2.data? a.size =
      some (.name (a.names.insert token.text).1) := data?_add _ _ _
  have hdata' : (Parser.named b (token.moved k)).2.data? b.size =
      some (.name (b.names.insert token.text).1) := data?_add _ _ _
  refine h.grow ((a.extends_insert _).trans (extends_add _ _ _))
    ((b.extends_insert _).trans (extends_add _ _ _))
    (fun i hi => span_add_of_lt (a := { a with names := (a.names.insert token.text).2 }) hi _ _)
    (fun i hi => span_add_of_lt (a := { b with names := (b.names.insert token.text).2 }) hi _ _)
    (size_add { a with names := (a.names.insert token.text).2 } _ _)
    (size_add { b with names := (b.names.insert token.text).2 } _ _)
    ⟨fun found hfound hname => ?_, fun atom hatom => ?_, ?_⟩ hdata nofun
  · cases Option.some.inj (hdata.symm.trans hfound)
    cases hname
  · cases Option.some.inj (hdata.symm.trans hatom)
    refine ⟨_, token.text, ?_, names_insert _ _, names_insert _ _⟩
    rw [← h.size]
    exact hdata'
  · have hspan : (Parser.named a token).2.span a.size = token.span := span_add _ _ _
    have hspan' : (Parser.named b (token.moved k)).2.span b.size = token.span.moved k :=
      span_add _ _ _
    rw [hspan, ← h.size]
    exact hspan'

end Arena

/-! ## States -/

/-- How the tokens of one run stand among those of another one, and what the second run has done
before. -/
structure Alignment where
  /-- The tokens of the first run. -/
  tokens : Array Token
  /-- The tokens of the second run. -/
  others : Array Token
  /-- How many tokens of the first run are among the others. -/
  bound : Nat
  /-- How many tokens of the second run come before them. -/
  cursor : Nat
  /-- How many bytes come before them. -/
  offset : Nat
  /-- The nodes of the second run that were made before. -/
  arena : Arena
  /-- The problems that the first run begins with. -/
  findings : Array Finding
  /-- The problems that the second run begins with. -/
  findings' : Array Finding
  /-- Where a node of the first run may begin. -/
  Start : Nat → Prop
  token : ∀ j < bound, ∃ token, tokens[j]? = some token ∧
    others[j + cursor]? = some (token.moved offset) ∧ Start token.span.start ∧
      (token.kind.endsLine = false → Start token.span.stop)
  last : ∀ j < bound, bound ≤ j + 1 → ∃ token, tokens[j]? = some token ∧ token.kind.endsLine = true
  size : tokens.size + cursor ≤ others.size
  ordered : Token.Ordered tokens
  ended : ParseState.Ended others
  fresh : ∀ finding ∈ findings, finding.code ∉ Code.ofParser
  fresh' : ∀ finding ∈ findings', finding.code ∈ Code.ofParser → finding.span.start < offset

namespace Alignment

open ParseState

variable {A : Alignment} {s t : ParseState} {ps qs : List NodeId} {code : Nat} {span : Span}
  {arg : Option String}

/-- Two states that have come equally far. -/
structure Beside (A : Alignment) (s t : ParseState) : Prop where
  tokens : s.tokens = A.tokens
  others : t.tokens = A.others
  cursor : t.cursor = s.cursor + A.cursor
  lastStop : t.lastStop = s.lastStop + A.offset ∨ s.lastStop = 0 ∧ t.lastStop ≤ A.offset
  findings : ∃ found : List Finding, s.findings.toList = A.findings.toList ++ found ∧
    t.findings.toList = A.findings'.toList ++ found.map (·.moved A.offset) ∧
    ∀ finding ∈ found, A.Start finding.span.start
  arena : A.arena.Follows A.offset s.arena t.arena
  starts : ∀ i < s.arena.size, A.Start (s.arena.span i).start
  stops : s.lastStop ≠ 0 → A.Start s.lastStop

/-- Two states that belong together: the next token is the same. -/
structure Together (A : Alignment) (s t : ParseState) (ps : List NodeId) : Prop extends
    A.Beside s t where
  cursor_lt : s.cursor < A.bound
  pending : ∀ i ∈ ps, i < s.arena.size

section

variable (h : A.Together s t ps)
include h

theorem Together.lt_size : s.cursor < s.tokens.size := by
  obtain ⟨token, htoken, -⟩ := A.token _ h.cursor_lt
  rw [h.tokens]
  exact (Array.getElem?_eq_some_iff.mp htoken).1

theorem Together.lt_size' : t.cursor < t.tokens.size := by
  have hlt := h.lt_size
  have hsize := A.size
  rw [h.tokens] at hlt
  rw [h.others, h.cursor]
  omega

/-- The next tokens are the same. -/
theorem Together.token :
    t.token = s.token.moved A.offset ∧ A.Start s.token.span.start ∧
      (s.token.kind.endsLine = false → A.Start s.token.span.stop) := by
  obtain ⟨token, htoken, hother, hstart⟩ := A.token _ h.cursor_lt
  rw [← h.tokens] at htoken
  rw [← h.others, ← h.cursor] at hother
  have hs : s.token = token :=
    (token_eq h.lt_size).trans (Array.getElem?_eq_some_iff.mp htoken).2
  have ht : t.token = token.moved A.offset :=
    (token_eq h.lt_size').trans (Array.getElem?_eq_some_iff.mp hother).2
  rw [ht, hs]
  exact ⟨rfl, hstart⟩

private theorem Together.succ_lt (hline : s.token.kind.endsLine = false) :
    s.cursor + 1 < A.bound := by
  refine Nat.lt_of_not_le fun hle => ?_
  obtain ⟨token, htoken, hlast⟩ := A.last _ h.cursor_lt hle
  rw [← h.tokens] at htoken
  rw [token_eq h.lt_size, (Array.getElem?_eq_some_iff.mp htoken).2, hlast] at hline
  cases hline

private theorem Together.nextKind (hline : s.token.kind.endsLine = false) :
    t.nextKind = s.nextKind := by
  obtain ⟨token, htoken, hother, -⟩ := A.token _ (h.succ_lt hline)
  rw [ParseState.nextKind, ParseState.nextKind, h.tokens, h.others, h.cursor, Nat.add_right_comm, htoken,
    hother]
  rfl

/-! ## Steps -/

private theorem Together.take (hline : s.token.kind.endsLine = false) :
    A.Together s.taken t.taken ps where
  tokens := h.tokens
  others := h.others
  cursor_lt := h.succ_lt hline
  cursor := (congrArg (· + 1) h.cursor).trans (Nat.add_right_comm _ _ _)
  lastStop := .inl (congrArg (fun token : Token => token.span.stop) h.token.1)
  findings := h.findings
  arena := h.arena
  starts := h.starts
  stops _ := h.token.2.2 hline
  pending := h.pending

private theorem Together.of_findings {findings findings' : Array Finding} (found : List Finding)
    (hs : findings.toList = A.findings.toList ++ found)
    (ht : findings'.toList = A.findings'.toList ++ found.map (·.moved A.offset))
    (hstart : ∀ finding ∈ found, A.Start finding.span.start) :
    A.Together { s with findings := findings } { t with findings := findings' } ps :=
  ⟨⟨h.tokens, h.others, h.cursor, h.lastStop, ⟨found, hs, ht, hstart⟩, h.arena, h.starts, h.stops⟩,
    h.cursor_lt, h.pending⟩

private theorem Together.reported (hcode : code ∈ Code.ofParser) (hstart : A.Start span.start)
    (arg : Option String) :
    A.Together (s.reported code span arg) (t.reported code (span.moved A.offset) arg) ps := by
  obtain ⟨found, hs, ht, hfound⟩ := h.findings
  let same (last : Finding) (start : Nat) : Bool := last.span.start == start && last.code == code
  have hsame : t.findings.back?.any (same · (span.start + A.offset)) =
      s.findings.back?.any (same · span.start) := by
    rw [← Array.getLast?_toList, ← Array.getLast?_toList, hs, ht]
    rcases List.eq_nil_or_concat found with rfl | ⟨found, last, rfl⟩
    · have hnone (findings : Array Finding) (start : Nat)
          (hdiffer : ∀ last ∈ findings, same last start = false) :
          findings.toList.getLast?.any (same · start) = false := by
        cases hlast : findings.toList.getLast? with
        | none => rfl
        | some last => exact hdiffer last (Array.mem_toList_iff.mp (List.mem_of_getLast? hlast))
      rw [List.map_nil, List.append_nil, List.append_nil, hnone A.findings _ fun last hlast => ?_,
        hnone A.findings' _ fun last hlast => ?_]
      · refine Bool.eq_false_iff.mpr fun heq => ?_
        rw [Bool.and_eq_true, beq_iff_eq, beq_iff_eq] at heq
        have hlt := A.fresh' last hlast (heq.2 ▸ hcode)
        omega
      · refine Bool.eq_false_iff.mpr fun heq => ?_
        rw [Bool.and_eq_true, beq_iff_eq, beq_iff_eq] at heq
        exact A.fresh last hlast (heq.2 ▸ hcode)
    · rw [Bool.eq_iff_iff]
      simp [same, Finding.moved, Span.moved]
  have hpush : A.Together { s with findings := s.findings.push ⟨code, span, arg⟩ }
      { t with findings := t.findings.push ⟨code, span.moved A.offset, arg⟩ } ps := by
    refine h.of_findings (found ++ [⟨code, span, arg⟩]) ?_ ?_ fun finding hfinding => ?_
    · rw [Array.toList_push, hs, List.append_assoc]
    · rw [Array.toList_push, ht, List.map_append, List.append_assoc]
      rfl
    · rcases List.mem_append.mp hfinding with hfinding | hfinding
      · exact hfound finding hfinding
      · rw [List.mem_singleton.mp hfinding]
        exact hstart
  have hrun : t.reported code (span.moved A.offset) arg =
      if s.findings.back?.any (same · span.start) then t
      else { t with findings := t.findings.push ⟨code, span.moved A.offset, arg⟩ } := by
    rw [← hsame]
    exact t.reported_eq_if _ _ _
  rw [hrun, reported_eq_if]
  split
  · exact h
  · exact hpush

end

/-! ## Nodes -/

/-- Nodes may be left behind. -/
theorem Together.of_subset (h : A.Together s t qs) (hsub : ps ⊆ qs) : A.Together s t ps :=
  { h with pending := fun i hi => h.pending i (hsub hi) }

private theorem Together.grow {a b : Arena} (h : A.Together s t ps)
    (harena : A.arena.Follows A.offset a b) (hspan : ∀ i < s.arena.size, a.span i = s.arena.span i) (hsize : a.size = s.arena.size + 1)
    (hstart : A.Start (a.span s.arena.size).start) :
    A.Together { s with arena := a } { t with arena := b } (ps ++ [s.arena.size]) where
  tokens := h.tokens
  others := h.others
  cursor_lt := h.cursor_lt
  cursor := h.cursor
  lastStop := h.lastStop
  findings := h.findings
  arena := harena
  starts i hi := by
    rcases Nat.lt_succ_iff_lt_or_eq.mp (hsize ▸ hi) with hi | rfl
    · show A.Start (a.span i).start
      rw [hspan i hi]
      exact h.starts i hi
    · exact hstart
  stops := h.stops
  pending i hi := by
    show i < a.size
    rw [hsize]
    rcases List.mem_append.mp hi with hi | hi
    · exact Nat.lt_succ_of_lt (h.pending i hi)
    · rw [List.mem_singleton.mp hi]
      exact Nat.lt_succ_self _

private theorem Together.add {data : NodeData} (h : A.Together s t (ps ++ data.children))
    (hname : data.isName = false) (hstart : A.Start span.start) :
    (t.arena.add (data.rename (· + A.arena.size)) (span.moved A.offset)).1 =
        (s.arena.add data span).1 + A.arena.size ∧
      A.Together { s with arena := (s.arena.add data span).2 }
        { t with arena :=
          (t.arena.add (data.rename (· + A.arena.size)) (span.moved A.offset)).2 }
        (ps ++ [(s.arena.add data span).1]) := by
  have hchildren (c : NodeId) (hc : c ∈ data.children) : c < s.arena.size :=
    h.pending c (List.mem_append_right _ hc)
  have hspan : (s.arena.add data span).2.span s.arena.size = span := s.arena.span_add data span
  exact ⟨h.arena.size, (h.of_subset (List.subset_append_left _ _)).grow
    (h.arena.add hname hchildren span) (fun i hi => Arena.span_add_of_lt hi data span)
    (s.arena.size_add data span) (hspan.symm ▸ hstart)⟩

private theorem Together.finish {data : NodeData} {a : Nat}
    (h : A.Together s t (ps ++ data.children))
    (hname : data.isName = false) (hstart : A.Start a) :
    ((Parser.finish (data.rename (· + A.arena.size)) (a + A.offset)).run t).1 =
        ((Parser.finish data a).run s).1 + A.arena.size ∧
      A.Together ((Parser.finish data a).run s).2
        ((Parser.finish (data.rename (· + A.arena.size)) (a + A.offset)).run t).2
        (ps ++ [((Parser.finish data a).run s).1]) := by
  have hspan : (⟨a + A.offset, max t.lastStop (a + A.offset)⟩ : Span) =
      (⟨a, max s.lastStop a⟩ : Span).moved A.offset := by
    have hstop : max t.lastStop (a + A.offset) = max s.lastStop a + A.offset := by
      have := h.lastStop
      omega
    rw [hstop]
    rfl
  rw [Parser.run_finish, Parser.run_finish, hspan]
  exact h.add hname hstart

section

variable (h : A.Together s t ps)
include h

private theorem Together.name (hs : s.token.kind = .name ∨ s.lastStop ≠ 0) :
    (Parser.name.run t).1 = (Parser.name.run s).1 + A.arena.size ∧
      A.Together (Parser.name.run s).2 (Parser.name.run t).2 (ps ++ [(Parser.name.run s).1]) := by
  obtain ⟨htoken, hstart, -⟩ := h.token
  by_cases hk : s.token.kind = .name
  · have hk' : t.token.kind = .name := by rw [htoken]; exact hk
    have hspan : (Parser.named s.arena s.token).2.span s.arena.size = s.token.span :=
      Arena.span_add _ _ _
    rw [Parser.run_name hk, Parser.run_name hk', htoken]
    refine ⟨h.arena.size, (h.take (by rw [hk]; rfl)).grow (h.arena.named s.token)
      (fun i hi => Arena.span_add_of_lt
        (a := { s.arena with names := (s.arena.names.insert s.token.text).2 }) hi _ _)
      (Arena.size_add { s.arena with names := (s.arena.names.insert s.token.text).2 } _ _)
      ?_⟩
    show A.Start ((Parser.named s.arena s.token).2.span s.arena.size).start
    rw [hspan]
    exact hstart
  · have hk' : t.token.kind ≠ .name := by rw [htoken]; exact hk
    have hcode : Code.expectedName ∈ Code.ofParser := by decide
    have hreported := h.reported hcode hstart none
    have hstop : (t.reported Code.expectedName (s.token.span.moved A.offset) none).lastStop =
        (s.reported Code.expectedName s.token.span none).lastStop + A.offset := by
      rw [lastStop_reported, lastStop_reported]
      exact h.lastStop.resolve_right fun hzero => hs.elim hk fun hne => hne hzero.1
    have hlast : A.Start (s.reported Code.expectedName s.token.span none).lastStop := by
      rw [lastStop_reported]
      exact h.stops (hs.resolve_left hk)
    rw [Parser.run_name_of_ne hk, Parser.run_name_of_ne hk', htoken]
    simp only [Token.moved]
    generalize s.reported Code.expectedName s.token.span none = r at hreported hstop hlast
    generalize t.reported Code.expectedName (s.token.span.moved A.offset) none = r' at hreported hstop
    have hspan : (⟨r'.lastStop, r'.lastStop⟩ : Span) =
        (⟨r.lastStop, r.lastStop⟩ : Span).moved A.offset := by
      rw [hstop]
      rfl
    rw [hspan]
    have hmalformed : A.Together r r' (ps ++ NodeData.malformed.children) := by
      rw [NodeData.children, List.append_nil]
      exact hreported
    exact hmalformed.add rfl hlast

private theorem Together.constant (hline : s.token.kind.endsLine = false) (kind : ConstantKind) :
    ((Parser.constant kind).run t).1 = ((Parser.constant kind).run s).1 + A.arena.size ∧
      A.Together ((Parser.constant kind).run s).2 ((Parser.constant kind).run t).2
        (ps ++ [((Parser.constant kind).run s).1]) := by
  obtain ⟨htoken, hstart, -⟩ := h.token
  have hline' : t.token.kind.endsLine = false := by rw [htoken]; exact hline
  rw [Parser.run_constant hline, Parser.run_constant hline', htoken]
  have htaken : A.Together s.taken t.taken (ps ++ (NodeData.constant kind none).children) := by
    rw [NodeData.children, List.append_nil]
    exact h.take hline
  exact htaken.finish rfl hstart

private theorem Together.literals :
    t.literals = s.literals.map (·.moved A.offset) ∧
      A.Together s.behindLiterals t.behindLiterals ps := by
  induction hn : A.bound - s.cursor using Nat.strongRecOn generalizing s t with | ind n ih
  obtain ⟨htoken, -⟩ := h.token
  by_cases hk : s.token.kind = .string ∨ s.token.kind = .bytes
  · have hk' : t.token.kind = .string ∨ t.token.kind = .bytes := by rw [htoken]; exact hk
    have hline : s.token.kind.endsLine = false := by rcases hk with hk | hk <;> rw [hk] <;> rfl
    have hlt : A.bound - s.taken.cursor < n := hn ▸ Nat.sub_succ_lt_self _ _ h.cursor_lt
    obtain ⟨hliterals, hbehind⟩ := ih _ hlt (h.take hline) rfl
    rw [literals_cons h.lt_size hk, literals_cons h.lt_size' hk', hliterals, htoken,
      behindLiterals_cons h.lt_size hk, behindLiterals_cons h.lt_size' hk']
    exact ⟨rfl, hbehind⟩
  · have hnil := literals_eq_nil h.lt_size (fun hs => hk (.inl hs)) fun hs => hk (.inr hs)
    have hnil' : t.literals = [] := by
      refine literals_eq_nil h.lt_size' (fun hs => hk (.inl ?_)) fun hs => hk (.inr ?_)
      all_goals
        rw [htoken] at hs
        exact hs
    rw [behindLiterals_eq_self hnil, behindLiterals_eq_self hnil', hnil, hnil']
    exact ⟨rfl, h⟩

private theorem Together.strings :
    (Parser.strings.run t).1 = (Parser.strings.run s).1 + A.arena.size ∧
      A.Together (Parser.strings.run s).2 (Parser.strings.run t).2
        (ps ++ [(Parser.strings.run s).1]) := by
  obtain ⟨htoken, hstart, -⟩ := h.token
  obtain ⟨hliterals, hbehind⟩ := h.literals
  have hended : Ended s.tokens := by
    rw [h.tokens]
    exact Lockstep.ended_of_ordered A.ordered
  have hended' : Ended t.tokens := by
    rw [h.others]
    exact A.ended
  have htext (token : Token) : StringLiteral.decode (token.moved A.offset).text =
      StringLiteral.decode token.text := rfl
  have hkind : (s.token.moved A.offset).kind = s.token.kind := rfl
  rw [Parser.run_strings hended h.lt_size, Parser.run_strings hended' h.lt_size', hliterals, htoken,
    List.map_map]
  simp only [Function.comp_def, htext, hkind]
  generalize (s.literals.map fun token => StringLiteral.decode token.text).foldr (· ++ ·) "" = value
  generalize (if s.token.kind == .bytes then ConstantKind.bytes else .string) = kind
  have hconstant : A.Together s.behindLiterals t.behindLiterals
      (ps ++ (NodeData.constant kind (some value)).children) := by
    rw [NodeData.children, List.append_nil]
    exact hbehind
  exact hconstant.finish rfl hstart

/-! ## Targets -/

private theorem Together.checkTargetUpTo {fuel fuel' : Nat} {i : NodeId} (hi : i < s.arena.size)
    (hfuel : i < fuel) (hfuel' : i < fuel') :
    A.Together ((Parser.checkTargetUpTo fuel i).run s).2
      ((Parser.checkTargetUpTo fuel' (i + A.arena.size)).run t).2 ps := by
  induction fuel generalizing s t i fuel' with
  | zero => exact absurd hfuel (Nat.not_lt_zero i)
  | succ fuel ih =>
    obtain ⟨fuel', rfl⟩ := Nat.exists_eq_succ_of_ne_zero (Nat.ne_zero_of_lt hfuel')
    have heach (elts : List NodeId) (s t : ParseState) (h : A.Together s t ps)
        (hi : i < s.arena.size) (helts : ∀ c ∈ elts, c < i) :
        A.Together ((elts.forM (Parser.checkTargetUpTo fuel)).run s).2
          (((elts.map (· + A.arena.size)).forM (Parser.checkTargetUpTo fuel')).run t).2 ps := by
      induction elts generalizing s t with
      | nil => exact h
      | cons c elts iheach =>
        have hc : c < i := helts c List.mem_cons_self
        have hfirst := ih h (Nat.lt_trans hc hi) (Nat.lt_of_lt_of_le hc (Nat.le_of_lt_succ hfuel))
          (Nat.lt_of_lt_of_le hc (Nat.le_of_lt_succ hfuel'))
        obtain ⟨findings, hrun, -⟩ := Parser.exists_checkTargetUpTo fuel c s
        refine iheach _ _ hfirst ?_ fun c hc => helts c (List.mem_cons_of_mem _ hc)
        show i < ((Parser.checkTargetUpTo fuel c).run s).2.arena.size
        rw [hrun]
        exact hi
    obtain ⟨found, hfound⟩ := Arena.data?_of_lt hi
    obtain ⟨hdata, hname, hspan⟩ := h.arena.node i hi
    have hchildren := h.arena.children i found hfound
    have hs : (Parser.dataOf i).run s = (some found, s) := congrArg (·, s) hfound
    rw [Parser.checkTargetUpTo, Parser.checkTargetUpTo, Parser.run_bind hs]
    have hother (hno : found.isName = false) : (Parser.dataOf (i + A.arena.size)).run t =
        (some (found.rename (· + A.arena.size)), t) := congrArg (·, t) (hdata found hfound hno)
    cases found with
    | name atom =>
      obtain ⟨atom', text, hother, -⟩ := hname atom hfound
      have ht : (Parser.dataOf (i + A.arena.size)).run t = (some (.name atom'), t) :=
        congrArg (·, t) hother
      rw [Parser.run_bind ht]
      exact h
    | member | subscript | malformed =>
      rw [Parser.run_bind (hother rfl)]
      exact h
    | tuple elts | list elts =>
      rw [Parser.run_bind (hother rfl)]
      exact heach elts s t h hi hchildren
    | starred value =>
      have hvalue : value < i := hchildren value (List.mem_singleton_self value)
      rw [Parser.run_bind (hother rfl)]
      exact ih h (Nat.lt_trans hvalue hi) (Nat.lt_of_lt_of_le hvalue (Nat.le_of_lt_succ hfuel))
        (Nat.lt_of_lt_of_le hvalue (Nat.le_of_lt_succ hfuel'))
    | _ =>
      have hcode : Code.invalidAssignmentTarget ∈ Code.ofParser := by decide
      have hreported := h.reported hcode (h.starts i hi) none
      rw [← hspan] at hreported
      rw [Parser.run_bind (hother rfl)]
      exact hreported

private theorem Together.checkTarget {i : NodeId} (hi : i ∈ ps) :
    A.Together ((Parser.checkTarget i).run s).2
      ((Parser.checkTarget (i + A.arena.size)).run t).2 ps := by
  have hlt := h.pending i hi
  have hlt' : i < t.arena.size := by
    rw [h.arena.size]
    exact Nat.lt_add_right _ hlt
  exact h.checkTargetUpTo hlt hlt hlt'

private theorem Together.dataOf {i : NodeId} (hi : i ∈ ps) :
    ∃ found, s.arena.data? i = some found ∧
      ((∃ atom atom', found = .name atom ∧ t.arena.data? (i + A.arena.size) = some (.name atom')) ∨
        found.isName = false ∧
          t.arena.data? (i + A.arena.size) = some (found.rename (· + A.arena.size))) := by
  have hlt := h.pending i hi
  obtain ⟨found, hfound⟩ := Arena.data?_of_lt hlt
  obtain ⟨hdata, hname, -⟩ := h.arena.node i hlt
  refine ⟨found, hfound, ?_⟩
  cases hisName : found.isName with
  | false => exact .inr ⟨rfl, hdata found hfound hisName⟩
  | true =>
    cases found <;> cases hisName
    obtain ⟨atom', -, hother, -⟩ := hname _ hfound
    exact .inl ⟨_, atom', rfl, hother⟩

private theorem Together.checkPlace {i : NodeId} (hi : i ∈ ps) :
    A.Together ((Parser.checkPlace i).run s).2
      ((Parser.checkPlace (i + A.arena.size)).run t).2 ps := by
  have hplace (data : NodeData) : (data.rename (· + A.arena.size)).isPlace = data.isPlace := by
    cases data <;> rfl
  have hrun (i : NodeId) (s : ParseState) : ((Parser.checkPlace i).run s).2 =
      if ((s.arena.data? i).map NodeData.isPlace).getD false then s
      else s.reported Code.invalidAssignmentTarget (s.arena.span i) none := by
    have hdata : (Parser.dataOf i).run s = (s.arena.data? i, s) := rfl
    rw [Parser.checkPlace, Parser.run_bind hdata]
    cases ((s.arena.data? i).map NodeData.isPlace).getD false <;> rfl
  have hsame : ((t.arena.data? (i + A.arena.size)).map NodeData.isPlace).getD false =
      ((s.arena.data? i).map NodeData.isPlace).getD false := by
    obtain ⟨found, hfound, ⟨atom, atom', rfl, hother⟩ | ⟨-, hother⟩⟩ := h.dataOf hi
    · rw [hfound, hother]
      rfl
    · rw [hfound, hother]
      exact hplace found
  have hcode : Code.invalidAssignmentTarget ∈ Code.ofParser := by decide
  have hlt := h.pending i hi
  have hspan := (h.arena.node i hlt).span
  have hreported := h.reported hcode (h.starts i hlt) none
  rw [← hspan] at hreported
  rw [hrun, hrun, hsame]
  split
  · exact h
  · exact hreported

end

private theorem Together.tuple {i : NodeId} (h : A.Together s t (ps ++ [i])) :
    (∃ elts, s.arena.data? i = some (.tuple elts) ∧
      t.arena.data? (i + A.arena.size) = some (.tuple (elts.map (· + A.arena.size))) ∧
        A.Together s t (ps ++ elts)) ∨
    (∀ elts, s.arena.data? i ≠ some (.tuple elts)) ∧
      ∀ elts, t.arena.data? (i + A.arena.size) ≠ some (.tuple elts) := by
  have hi : i ∈ ps ++ [i] := List.mem_append_right _ (List.mem_singleton_self i)
  obtain ⟨found, hfound, ⟨atom, atom', rfl, hother⟩ | ⟨-, hother⟩⟩ := h.dataOf hi
  · rw [hfound, hother]
    exact .inr ⟨nofun, nofun⟩
  · rw [hfound, hother]
    cases found with
    | tuple elts =>
      have hold := h.of_subset (List.subset_append_left ps [i])
      refine .inl ⟨elts, rfl, rfl, { hold with pending := fun c hc => ?_ }⟩
      rcases List.mem_append.mp hc with hc | hc
      · exact hold.pending c hc
      · exact Nat.lt_trans (h.arena.children i _ hfound c hc) (h.pending i hi)
    | _ => exact .inr ⟨nofun, nofun⟩

/-! ## The grammar -/

private theorem stopping (A : Alignment) :
    Stopping A.tokens := Lockstep.stopping_of_ordered A.ordered

private theorem Together.remaining_le (h : A.Together s t ps) : s.remaining ≤ t.remaining := by
  have hsize := A.size
  rw [ParseState.remaining, ParseState.remaining, h.tokens, h.others, h.cursor]
  omega

private theorem Together.problems {s' t' : ParseState} {qs : List NodeId} (h : A.Together s t ps)
    (h' : A.Together s' t' qs) :
    s'.findings.size + t.findings.size = s.findings.size + t'.findings.size := by
  obtain ⟨found, hs, ht, -⟩ := h.findings
  obtain ⟨found', hs', ht', -⟩ := h'.findings
  simp only [← Array.length_toList, hs, ht, hs', ht', List.length_append, List.length_map]
  omega

/-- Two runs whose tokens are the same, some of them later in the second. -/
def lockstep (A : Alignment) : Lockstep where
  Rel := A.Together
  node := (· + A.arena.size)
  shift := A.offset
  Start := A.Start
  tokens := A.tokens
  tokens_eq h := h.tokens
  cursor_lt h := h.tokens ▸ h.lt_size
  remaining_le h := h.remaining_le
  problems h h' := h.problems h'
  kind h := by rw [h.token.1]; rfl
  text h := by rw [h.token.1]; rfl
  nextKind h hline := h.nextKind hline
  start h := ⟨by rw [h.token.1]; rfl, h.token.2.1⟩
  stopping := A.stopping
  ended := Lockstep.ended_of_ordered A.ordered
  take h hline _ := h.take hline
  report h hcode arg := by
    rw [h.token.1]
    exact h.reported (List.mem_cons_of_mem _ hcode) h.token.2.1 arg
  checkTarget h hi := h.checkTarget hi
  checkPlace h hi := h.checkPlace hi
  name h hs := h.name hs
  constant h hline _ kind := h.constant hline kind
  strings h _ := h.strings
  finish {s t ps data a} h hstart hdata := by
    have hname : data.isName = false := by
      rcases hdata with hinner | ⟨rfl, -⟩
      · cases data <;> first | rfl | cases hinner
      · rfl
    exact h.finish hname hstart
  forget h _ := h.of_subset (List.subset_append_left _ _)
  tuple h := h.tuple

/-- A token of layout is passed. -/
theorem Together.pass (h : A.Together s t ps) : A.Beside s.passed t.passed where
  tokens := h.tokens
  others := h.others
  cursor := (congrArg (· + 1) h.cursor).trans (Nat.add_right_comm _ _ _)
  lastStop := h.lastStop
  findings := h.findings
  arena := h.arena
  starts := h.starts
  stops := h.stops

/-- If all tokens of the first run are among the others, the two runs stay together from line to
line. -/
theorem crossesLines (hbound : A.bound = A.tokens.size) : A.lockstep.CrossesLines := by
  intro s t ps h hlayout
  have h : A.Together s t ps := h
  have hended : Ended s.tokens := by
    rw [h.tokens]
    exact Lockstep.ended_of_ordered A.ordered
  have hne : s.token.kind ≠ .endOfFile := fun heof => by rw [heof] at hlayout; cases hlayout
  have hlt := succ_lt_size hended h.lt_size hne
  rw [h.tokens, ← hbound] at hlt
  exact { h.pass with cursor_lt := hlt, pending := h.pending }

end Alignment
end LiveCheck
