import LiveCheck.Proofs.Hints.Hint
import LiveCheck.Proofs.Printing.Nesting

/-!
# Reading type expressions

The parser reads the pieces of a type expression as nodes of its shape, if bars group to the left in
it, as they do in what is written for a type.
-/

namespace LiveCheck

open TypeTable

namespace Hint

/-- Whether the type expression is made of alternatives. -/
def isOr : Hint → Bool
  | .or _ _ => true
  | _ => false

mutual

/-- Bars group to the left. -/
def Leftward : Hint → Prop
  | .cls _ => True
  | .subscript _ args => AllLeftward args
  | .or left right => left.Leftward ∧ right.Leftward ∧ right.isOr = false

/-- Bars group to the left in all of the type expressions. -/
def AllLeftward : List Hint → Prop
  | [] => True
  | h :: hs => h.Leftward ∧ AllLeftward hs

end

private theorem allLeftward_iff {hs : List Hint} : AllLeftward hs ↔ ∀ h ∈ hs, h.Leftward := by
  induction hs with
  | nil => simp [AllLeftward]
  | cons h hs ih => simp [AllLeftward, ih]

private theorem leftward_alternatives {h : Hint} {hs : List Hint} (hh : h.Leftward)
    (hhs : ∀ h ∈ hs, h.Leftward ∧ h.isOr = false) : (alternatives h hs).Leftward := by
  induction hs generalizing h with
  | nil => exact hh
  | cons other hs ih =>
    obtain ⟨hother, hhs⟩ := List.forall_mem_cons.mp hhs
    exact ih (h := .or h other) ⟨hh, hother⟩ hhs

private theorem indexParts_of_shown {a : Arena} {h : Hint} {node : NodeId} (hs : h.Shown a node) :
    a.indexParts node = [node] := by
  cases h with
  | cls c =>
    by_cases hnone : c = .none
    · subst hnone
      rw [Arena.indexParts, show a.data? node = _ from hs]
    · by_cases hellipsis : c = .ellipsis
      · subst hellipsis
        rw [Arena.indexParts, show a.data? node = _ from hs]
      · obtain ⟨atom, hdata, -⟩ := (BuiltinClass.shown_iff hnone hellipsis).mp hs
        rw [Arena.indexParts, hdata]
  | subscript c args =>
    obtain ⟨i, j, hdata, -⟩ := hs
    rw [Arena.indexParts, hdata]
  | or left right =>
    obtain ⟨i, j, hdata, -⟩ := hs
    rw [Arena.indexParts, hdata]

end Hint

namespace TypeTable

variable {t : TypeTable} {depth fuel : Nat} {id : TypeId}

private theorem Writable.isOr_eq_false (h : t.Writable depth id) (hsingle : t.members id = [id])
    (fuel : Nat) : (t.hintUpTo fuel id).isOr = false := by
  cases fuel with
  | zero => rfl
  | succ fuel =>
    cases h with
    | @cls _ _ cls _ hid =>
      rw [hintUpTo_of_find? hid]
      cases cls <;> rfl
    | generic _ _ hne _ hid =>
      rw [hintUpTo_of_find? hid, TypeData.hint_generic hne]
      rfl
    | classObject _ hid =>
      rw [hintUpTo_of_find? hid]
      rfl
    | union htwo _ _ _ _ hid =>
      rw [← members_of_find?_union hid, hsingle] at htwo
      simp at htwo

/-- In what is written for a type bars group to the left. -/
theorem Writable.leftward (h : t.Writable depth id) (hfuel : depth < fuel)
    (hbase : initial.Extends t) : (t.hintUpTo fuel id).Leftward := by
  obtain ⟨fuel, rfl⟩ : ∃ n, fuel = n + 1 := ⟨fuel - 1, by omega⟩
  induction h generalizing fuel with
  | @cls _ id cls hcls hid =>
    rw [hintUpTo_of_find? hid]
    cases cls <;> trivial
  | @generic depth id cls args _ _ hne _ hid ih =>
    obtain ⟨fuel, rfl⟩ : ∃ n, fuel = n + 1 := ⟨fuel - 1, by omega⟩
    rw [hintUpTo_of_find? hid, TypeData.hint_generic hne]
    refine Hint.allLeftward_iff.mpr fun h hmem => ?_
    obtain ⟨arg, harg, rfl⟩ := List.mem_map.mp hmem
    by_cases hellipsis : arg = .ellipsis
    · subst hellipsis
      rw [hintUpTo_ellipsis hbase]
      trivial
    · exact ih arg harg hellipsis fuel (by omega)
  | @classObject depth id inner _ hid ih =>
    obtain ⟨fuel, rfl⟩ : ∃ n, fuel = n + 1 := ⟨fuel - 1, by omega⟩
    rw [hintUpTo_of_find? hid]
    exact ⟨ih fuel (by omega), trivial⟩
  | @union depth id members _ _ _ hsingle hmembers hid ih =>
    obtain ⟨fuel, rfl⟩ : ∃ n, fuel = n + 1 := ⟨fuel - 1, by omega⟩
    rw [hintUpTo_of_find? hid]
    cases members with
    | nil => trivial
    | cons first others =>
      refine Hint.leftward_alternatives (ih first List.mem_cons_self fuel (by omega)) fun h hmem => ?_
      obtain ⟨m, hm, rfl⟩ := List.mem_map.mp hmem
      have hm' : m ∈ first :: others := List.mem_cons_of_mem first hm
      exact ⟨ih m hm' fuel (by omega), (hmembers m hm').isOr_eq_false (hsingle m hm') _⟩

end TypeTable

/-! ## Lengths -/

namespace Hint

private theorem length_le_indexPieces {arg : Hint} {args : List Hint} (h : arg ∈ args) :
    arg.pieces.length ≤ (indexPieces args).length := by
  have hcommas {args : List Hint} (h : arg ∈ args) :
      arg.pieces.length ≤ (commaPieces args).length := by
    induction h with
    | head args =>
      rw [commaPieces, List.length_cons, List.length_append]
      omega
    | tail other _ ih =>
      rw [commaPieces, List.length_cons, List.length_append]
      omega
  cases h with
  | head args =>
    rw [indexPieces, List.length_append]
    omega
  | @tail other args h =>
    have hle := hcommas h
    rw [indexPieces, List.length_append]
    omega

/-- Every bracket takes a piece. -/
theorem nesting_lt_length (h : Hint) : h.nesting < h.pieces.length := by
  induction h using Hint.induction with
  | cls c => exact Nat.zero_lt_one
  | subscript c args ih =>
    have hle : nestings args ≤ (indexPieces args).length := nestings_le fun arg harg =>
      Nat.le_trans (Nat.le_of_lt (ih arg harg)) (length_le_indexPieces harg)
    simp only [nesting, pieces, List.length_cons, List.length_append]
    omega
  | or left right ihleft ihright =>
    simp only [nesting, pieces, List.length_cons, List.length_append]
    omega

end Hint

namespace Parser

variable {n : Nested} {grade fuel depth : Nat} {s : ParseState} {q : Piece} {rest : List Piece}
  {cls : BuiltinClass} {h left right : Hint} {args : List Hint}

/-! ## Classes -/

private theorem reads_class (cls : BuiltinClass) :
    ReadsAs (atom n) [cls.piece] (fun b i => cls.Shown b i) grade := by
  intro s q rest hs _
  have hword (hs : s.ahead = ⟨.name, cls.name⟩ :: q :: rest) :
      Yields (atom n) s (q :: rest) fun b i =>
        ∃ atom, b.data? i = some (.name atom) ∧ b.names.names[atom]? = some cls.name :=
    .look (run_kind hs) (yields_word hs)
  cases cls with
  | none => exact .look (run_kind hs) (yields_constant hs nofun)
  | ellipsis => exact .look (run_kind hs) (yields_constant hs nofun)
  | _ => exact hword hs

private theorem begins_class (cls : BuiltinClass) (ps : List Piece) : Begins 15 (cls.piece :: ps) :=
  ⟨cls.piece, ps, rfl, by cases cls <;> rfl⟩

private theorem begins_hint (h : Hint) : Begins 15 h.pieces := by
  induction h using Hint.induction with
  | cls c => exact begins_class c []
  | subscript c args _ => exact begins_class c _
  | or left right ihleft _ => exact ihleft.append _

/-! ## Type expressions -/

/-- The type expression is read as what stands before a bar and, unless it has bars itself, as what
stands behind one. -/
private structure ReadsHint (n : Nested) (h : Hint) : Prop where
  left : ReadsLeftAs n 6 h.pieces fun b i => h.Shown b i
  right : h.isOr = false → ReadsAs (rule n 7) h.pieces (fun b i => h.Shown b i) 7

private theorem ReadsHint.of_reads {high : Nat} (hle : 7 ≤ high) (hhigh : high ≤ 15)
    (hreads : ReadsAs (rule n high) h.pieces (fun b i => h.Shown b i) high) : ReadsHint n h := by
  have hseven := reads_of_le (by decide) hle hhigh hreads ((begins_hint h).mono hhigh)
  exact ⟨readsLeft_of_reads hseven, fun _ => hseven⟩

private theorem ReadsHint.expression (hreads : ReadsHint n h) :
    ReadsAs (rule n 1) h.pieces (fun b i => h.Shown b i) 1 := by
  obtain ⟨p, ps, hps, -⟩ := begins_hint h
  have hsix := reads_of_readsLeft (.inl ⟨Nat.le_refl 6, by decide⟩) hreads.left
    (hps ▸ List.cons_ne_nil p ps)
  exact reads_of_le (Nat.le_refl 1) (by decide) (by decide) hsix
    ((begins_hint h).mono (by decide))

private theorem yields_emptyIndex (hempty : Reads n.expression (Expr.tuple []).pieces (.tuple []) 1)
    (hs : s.ahead =
      Symbol.openParen.piece :: Symbol.closeParen.piece :: Symbol.closeBracket.piece :: rest) :
    Yields (subscriptIndex n) s (Symbol.closeBracket.piece :: rest) fun b j =>
      (Expr.tuple []).Shown b j := by
  have hbegins : Begins 1 (Expr.tuple []).pieces := ⟨_, _, rfl, rfl⟩
  refine .start hs fun start => ?_
  refine (yields_sliceItem hbegins hempty hs (.inr rfl)).bind fun i t ht hi => ?_
  exact .look (run_isAt_of_ne ht.ahead nofun) (.pure ht.ahead hi)

private theorem yields_index {arg : Hint}
    (hargs : ∀ h ∈ arg :: args, ReadsAs n.expression h.pieces (fun b i => h.Shown b i) 1)
    (hs : s.ahead = Hint.indexPieces (arg :: args) ++ Symbol.closeBracket.piece :: rest) :
    Yields (subscriptIndex n) s (Symbol.closeBracket.piece :: rest) fun b j =>
      Hint.AllShown b (arg :: args) (b.indexParts j) := by
  have hitem : ReadsEach (sliceItem n) Hint.pieces (.symbol .comma) (.symbol .closeBracket)
      (arg :: args) fun b h i => h.Shown b i := fun h hmem _ _ _ hs hp =>
    yields_sliceItem ((begins_hint h).mono (by decide)) (hargs h hmem) hs hp
  have hstop : EndsList (isAt Symbol.closeBracket) Hint.pieces (.symbol .closeBracket) args := by
    refine ⟨fun h _ s ps hs => ?_, fun s q ps hs hq => run_isAt_of_eq hs hq⟩
    obtain ⟨p, others, hs', hopens⟩ := ((begins_hint h).mono (by decide : 1 ≤ 15)).ahead hs
    exact run_isAt_of_ne hs' (TokenKind.ne_of_opens hopens rfl)
  rw [Hint.indexPieces_cons, between, List.append_assoc] at hs
  have hcomma : Symbol.comma.piece.kind = .symbol .comma := rfl
  have hclose : Symbol.closeBracket.piece.kind = .symbol .closeBracket := rfl
  obtain ⟨p, ps, hps, hp⟩ := exists_behindEach hcomma hclose Hint.pieces args rest
  rw [hps] at hs
  obtain ⟨first, others, hs', -⟩ := (begins_hint arg).ahead hs
  refine .start hs' fun start => (hitem arg List.mem_cons_self hs hp).bind fun i t ht hi => ?_
  cases args with
  | nil =>
    obtain ⟨rfl, rfl⟩ := List.cons.inj hps
    refine .look (run_isAt_of_ne ht.ahead (by decide)) (.pure ht.ahead fun b hb => ?_)
    exact ⟨i, [], Hint.indexParts_of_shown (hi b hb), hi b hb, rfl⟩
  | cons second args =>
    obtain ⟨rfl, -⟩ := List.cons.inj hps
    refine .look (run_isAt_of_eq ht.ahead rfl) ?_
    have hothers : Yields (afterCommas (isAt Symbol.closeBracket) (sliceItem n)) t
        (Symbol.closeBracket.piece :: rest) fun b is =>
          List.Forall₂ (fun h i => h.Shown b i) (second :: args) is :=
      .look (run_remaining t) (yields_afterCommasUpTo hstop
        (fun h hmem => hitem h (List.mem_cons_of_mem _ hmem)) (ht.ahead.trans hps.symm) rfl
        (by decide) (Nat.le_refl _))
    refine hothers.bind fun is t₁ ht₁ his =>
      (yields_finish ht₁.ahead (.tuple (i :: is)) start).mono fun b node hb hnode => ?_
    rw [Arena.indexParts, hnode]
    exact ⟨i, is, rfl, hi b (ht₁.arena.trans hb), Hint.allShown_iff.mpr (his b hb)⟩

private theorem readsLeft_subscript {args : List Hint}
    (hargs : ∀ h ∈ args, ReadsAs n.expression h.pieces (fun b i => h.Shown b i) 1)
    (hempty : Reads n.expression (Expr.tuple []).pieces (.tuple []) 1) :
    ReadsLeftAs n 14 (Hint.subscript cls args).pieces fun b i =>
      (Hint.subscript cls args).Shown b i := by
  have hleft : ReadsLeftAs n 14 [cls.piece] fun b i => cls.Shown b i :=
    readsLeft_of_reads (reads_class cls)
  have hindex ⦃s rest⦄ (hs : s.ahead = Hint.indexPieces args ++ Symbol.closeBracket.piece :: rest) :
      Yields (subscriptIndex n) s (Symbol.closeBracket.piece :: rest) fun b j =>
        Hint.AllShown b args (b.indexParts j) := by
    cases args with
    | nil =>
      refine (yields_emptyIndex hempty hs).mono fun b j _ hj => ?_
      obtain ⟨elts, hdata, rfl⟩ := hj
      rw [Arena.indexParts, hdata]
      rfl
    | cons arg args => exact yields_index hargs hs
  exact hleft.step (by decide) (goesOnAs_subscript hindex)

/-! ## The knot -/

private theorem readsHint_nest (hleft : h.Leftward) (hfuel : h.nesting ≤ fuel)
    (hdepth : depth + h.nesting < Limits.parseDepth) : ReadsHint (nest fuel depth) h := by
  induction h using Hint.induction generalizing fuel depth with
  | cls c =>
    have hatom : ReadsAs (rule (nest fuel depth) 15) [c.piece] (fun b i => c.Shown b i) 15 :=
      reads_class c
    exact .of_reads (by decide) (Nat.le_refl 15) hatom
  | subscript c args ih =>
    -- what stands in the brackets is inside one more expression
    rw [Hint.nesting] at hfuel hdepth
    obtain ⟨fuel, rfl⟩ : ∃ k, fuel = k + 1 := ⟨fuel - 1, by omega⟩
    have hrule : (nest (fuel + 1) depth).expression = rule (nest fuel (depth + 1)) 1 :=
      expressionAt_succ (by omega)
    have hargs (arg : Hint) (harg : arg ∈ args) : ReadsAs (nest (fuel + 1) depth).expression
        arg.pieces (fun b i => arg.Shown b i) 1 := by
      have hle := Hint.nesting_le_nestings harg
      rw [hrule]
      exact (ih arg harg (Hint.allLeftward_iff.mp hleft arg harg) (by omega) (by omega)).expression
    have hempty :
        Reads (nest (fuel + 1) depth).expression (Expr.tuple []).pieces (.tuple []) 1 := by
      have hatom : Reads (rule (nest fuel (depth + 1)) 15) (Expr.tuple []).pieces (.tuple []) 15 :=
        reads_emptyTuple
      rw [hrule]
      exact reads_of_le (Nat.le_refl 1) (by decide) (Nat.le_refl 15) hatom ⟨_, _, rfl, rfl⟩
    exact .of_reads (by decide) (by decide)
      (reads_of_readsLeft (.inr rfl) (readsLeft_subscript hargs hempty) (List.cons_ne_nil _ _))
  | or left right ihleft ihright =>
    obtain ⟨hl, hr, hright⟩ := hleft
    rw [Hint.nesting] at hfuel hdepth
    have hleftHint : ReadsHint (nest fuel depth) left := ihleft hl (by omega) (by omega)
    have hrightHint : ReadsHint (nest fuel depth) right := ihright hr (by omega) (by omega)
    have hgrade : 6 ≤ BinaryOp.bitOr.grade ∧ BinaryOp.bitOr.grade ≤ 11 := by decide
    exact ⟨hleftHint.left.step (Nat.le_refl 6)
      (goesOnAs_binary hgrade (hrightHint.right hright)), (absurd ·.symm Bool.false_ne_true)⟩

/-- A type expression is read in a statement if the bound on the nesting allows it. -/
theorem reads_hint (hleft : h.Leftward) (hfuel : h.nesting < fuel)
    (hdepth : h.nesting < Limits.parseDepth) :
    ReadsAs (outermost fuel).expression h.pieces (fun b i => h.Shown b i) 1 := by
  obtain ⟨fuel, rfl⟩ : ∃ k, fuel = k + 1 := ⟨fuel - 1, by omega⟩
  have hrule : (outermost (fuel + 1)).expression = rule (nest fuel 0) 1 :=
    expressionAt_succ (Nat.zero_lt_of_lt hdepth)
  rw [hrule]
  exact (readsHint_nest hleft (by omega) (by omega)).expression

end Parser
end LiveCheck
