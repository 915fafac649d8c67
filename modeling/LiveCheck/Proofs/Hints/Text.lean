import LiveCheck.Proofs.Hints.Hint
import LiveCheck.Proofs.Printing.StatementRows

/-!
# The texts of types

The text of a type made of built-in classes has the pieces of the type expression in it that is
written for the type. The scanner takes these pieces as tokens, as many brackets close among them as
open, and no line ends there.
-/

namespace LiveCheck

open TypeTable

/-! ## Pieces in a text -/

/-- What follows ends a type expression: an argument or an alternative comes next, or a bracket or
the line ends. -/
def EndsHint (cs : List Char) : Prop := ∀ c ∈ cs.head?, c ∈ [',', ']', ' ', '\n']

/-- The text has the pieces in it, whatever follows that ends a type expression, and there is no
blank before them. -/
structure Inlaid (ps : List Piece) (cs : List Char) : Prop where
  begins : ∃ c ds, cs = c :: ds ∧ c ≠ ' ' ∧ c ≠ '\t'
  spaced : ∀ ⦃qs ds⦄, Spaced qs ds → EndsHint ds → Spaced (ps ++ qs) (cs ++ ds)

private theorem BuiltinClass.begins_piece (cls : BuiltinClass) :
    ∃ c ds, cls.piece.text.toList = c :: ds ∧ c ≠ ' ' ∧ c ≠ '\t' := by
  cases cls <;> exact ⟨_, _, rfl, by decide, by decide⟩

private theorem BuiltinClass.endsBefore_piece (cls : BuiltinClass) {c : Char}
    (hc : c ∈ [',', ']', ' ', '\n', '[']) (cs : List Char) :
    cls.piece.endsBefore (c :: cs) = true := by
  have hwords : [',', ']', ' ', '\n', '['].all (fun c =>
      !Lexeme.continuesName c && !Lexeme.isQuote c) = true := by decide +kernel
  have hword := List.all_eq_true.mp hwords c hc
  have hname (text : String) : (Piece.mk .name text).endsBefore (c :: cs) = true := by
    simpa [Piece.endsBefore] using hword
  cases cls with
  | none => simpa [Piece.endsBefore, BuiltinClass.piece, Keyword.piece] using hword
  | ellipsis =>
    simp only [List.mem_cons, List.not_mem_nil, or_false] at hc
    rcases hc with rfl | rfl | rfl | rfl | rfl <;> rfl
  | _ => exact hname _

private theorem inlaid_piece (cls : BuiltinClass) : Inlaid [cls.piece] cls.piece.text.toList := by
  refine ⟨cls.begins_piece, fun qs ds h hends => .piece ?_ h⟩
  cases ds with
  | nil => rfl
  | cons c ds =>
    apply cls.endsBefore_piece
    have hc := hends c rfl
    simp only [List.mem_cons, List.not_mem_nil, or_false] at hc ⊢
    tauto

/-- What stands between two parts: a piece with blanks around it. -/
private structure Separates (mark : Piece) (sep : String) : Prop where
  spaced : ∀ ⦃qs ds⦄, Spaced qs ds → Spaced (mark :: qs) (sep.toList ++ ds)
  ends : ∀ ds, EndsHint (sep.toList ++ ds)

private theorem separates_comma : Separates Symbol.comma.piece ", " where
  spaced _ _ h := .piece (p := Symbol.comma.piece) rfl (.blank (.inl rfl) h)
  ends ds c hc := by
    obtain rfl := Option.some.inj hc
    decide

private theorem separates_pipe : Separates Symbol.pipe.piece " | " where
  spaced _ _ h :=
    .blank (.inl rfl) (.piece (p := Symbol.pipe.piece) rfl (.blank (.inl rfl) h))
  ends ds c hc := by
    obtain rfl := Option.some.inj hc
    decide

private theorem inlaid_between {ι : Type} {mark : Piece} {sep : String} {pieces : ι → List Piece}
    {text : ι → String} {xs : List ι} (hsep : Separates mark sep) (hne : xs ≠ [])
    (hxs : ∀ x ∈ xs, Inlaid (pieces x) (text x).toList) :
    Inlaid (between mark pieces xs) (sep.intercalate (xs.map text)).toList := by
  cases xs with
  | nil => contradiction
  | cons x xs =>
    clear hne
    rw [between]
    induction xs generalizing x with
    | nil =>
      rw [List.map_singleton, String.intercalate_singleton, behindEach, List.append_nil]
      exact hxs x List.mem_cons_self
    | cons y xs ih =>
      obtain ⟨⟨c, cs, hcs, hc⟩, hfirst⟩ := hxs x List.mem_cons_self
      have hrest := ih y fun z hz => hxs z (List.mem_cons_of_mem x hz)
      rw [List.map_cons, List.map_cons, String.intercalate_cons_cons, ← List.map_cons,
        String.toList_append, String.toList_append, behindEach]
      refine ⟨⟨c, _, by rw [hcs]; rfl, hc⟩, fun qs ds h hends => ?_⟩
      have hspaced := hfirst (hsep.spaced (hrest.spaced h hends)) (hsep.ends _)
      simpa only [List.append_assoc, List.cons_append] using hspaced

private theorem inlaid_subscript (cls : BuiltinClass) (ps : List Piece) (cs : List Char)
    (h : ∀ ⦃qs ds⦄, Spaced qs ds → Spaced (ps ++ Symbol.closeBracket.piece :: qs)
      (cs ++ ']' :: ds)) :
    Inlaid (cls.piece :: Symbol.openBracket.piece :: (ps ++ [Symbol.closeBracket.piece]))
      (cls.piece.text.toList ++ '[' :: (cs ++ [']'])) := by
  obtain ⟨c, rest, hc, hblank⟩ := cls.begins_piece
  refine ⟨⟨c, _, by rw [hc]; rfl, hblank⟩, fun qs ds hds _ => ?_⟩
  have hopen : Spaced (Symbol.openBracket.piece :: (ps ++ Symbol.closeBracket.piece :: qs))
      ('[' :: (cs ++ ']' :: ds)) :=
    .piece (p := Symbol.openBracket.piece) (by cases cs <;> rfl) (h hds)
  have hwhole := Spaced.piece (cls.endsBefore_piece (c := '[') (by simp) (cs ++ ']' :: ds)) hopen
  simpa only [List.append_assoc, List.cons_append, List.nil_append] using hwhole

private theorem spaced_closeBracket {qs : List Piece} {ds : List Char} (h : Spaced qs ds) :
    Spaced (Symbol.closeBracket.piece :: qs) (']' :: ds) :=
  .piece (p := Symbol.closeBracket.piece) (by cases ds <;> rfl) h

private theorem endsHint_closeBracket {cs : List Char} : EndsHint (']' :: cs) := by
  intro c hc
  obtain rfl := Option.some.inj hc
  decide

private theorem between_map {ι κ : Type} (mark : Piece) (pieces : κ → List Piece) (f : ι → κ)
    (xs : List ι) : between mark pieces (xs.map f) = between mark (fun x => pieces (f x)) xs := by
  have hbehind (xs : List ι) :
      behindEach mark pieces (xs.map f) = behindEach mark (fun x => pieces (f x)) xs := by
    induction xs with
    | nil => rfl
    | cons x xs ih => rw [List.map_cons, behindEach, behindEach, ih]
  cases xs with
  | nil => rfl
  | cons x xs => rw [List.map_cons, between, between, hbehind]

/-! ## Texts of types -/

private theorem BuiltinClass.text_piece {cls : BuiltinClass} (h : cls ≠ .ellipsis) :
    cls.piece.text = cls.name := by
  cases cls <;> first | rfl | contradiction

namespace Hint

private theorem pieces_alternatives (h : Hint) (hs : List Hint) :
    (alternatives h hs).pieces = between Symbol.pipe.piece pieces (h :: hs) := by
  induction hs generalizing h with
  | nil => exact (List.append_nil _).symm
  | cons other hs ih =>
    refine (ih (.or h other)).trans ?_
    simp only [between, behindEach, pieces, List.append_assoc, List.cons_append]

end Hint

namespace TypeTable

variable {t : TypeTable} {depth fuel : Nat} {id : TypeId} {cls : ClassKey} {args : List TypeId}

private theorem inlaid_arguments (cls : BuiltinClass) (hcls : cls ≠ .ellipsis) (f : TypeId → Hint)
    (text : TypeId → String) (hne : args ≠ [])
    (hargs : ∀ arg ∈ args, Inlaid (f arg).pieces (text arg).toList) :
    Inlaid (Hint.subscript cls (args.map f)).pieces
      (cls.name ++ "[" ++ ", ".intercalate (args.map text) ++ "]").toList := by
  have hindex : Hint.indexPieces (args.map f) =
      between Symbol.comma.piece (fun arg => (f arg).pieces) args := by
    cases args with
    | nil => contradiction
    | cons arg args => rw [← between_map, List.map_cons, Hint.indexPieces_cons]
  have hinlaid := inlaid_subscript cls _ _ fun qs ds h =>
    (inlaid_between separates_comma hne hargs).spaced (spaced_closeBracket h)
      endsHint_closeBracket
  rw [Hint.pieces, hindex]
  simpa [BuiltinClass.text_piece hcls] using hinlaid

private theorem inlaid_emptyTuple : Inlaid (Hint.subscript .tuple []).pieces "tuple[()]".toList :=
  inlaid_subscript .tuple [Symbol.openParen.piece, Symbol.closeParen.piece] ['(', ')'] fun _ _ h =>
    .piece (p := Symbol.openParen.piece) rfl
      (.piece (p := Symbol.closeParen.piece) rfl (spaced_closeBracket h))

private theorem formatUpTo_inst (hd : t.get? id = some (.inst cls args)) :
    t.formatUpTo (fuel + 1) id = formatInstance (t.formatUpTo fuel) cls args := by
  rw [formatUpTo, hd]

private theorem formatInstance_nil (f : TypeId → String) {cls : BuiltinClass} (h : cls ≠ .tuple) :
    formatInstance f (.builtin cls) [] = cls.name := by
  cases cls <;> first | rfl | contradiction

private theorem formatInstance_of_ne_nil (f : TypeId → String) (cls : ClassKey) (h : args ≠ []) :
    formatInstance f cls args = cls.name ++ "[" ++
      ", ".intercalate (args.map fun a => if a == TypeId.ellipsis then "..." else f a) ++ "]" := by
  cases args with
  | nil => contradiction
  | cons arg args => rfl

/-- The text of a type has the pieces of what is written for it. -/
theorem Writable.inlaid (h : t.Writable depth id) (hfuel : depth < fuel)
    (hbase : initial.Extends t) :
    Inlaid (t.hintUpTo fuel id).pieces (t.formatUpTo fuel id).toList := by
  obtain ⟨fuel, rfl⟩ : ∃ n, fuel = n + 1 := ⟨fuel - 1, by omega⟩
  induction h generalizing fuel with
  | @cls depth id cls hcls hid =>
    have hd := (find?_eq_some_iff.mp hid).1
    rw [hintUpTo_succ hd, formatUpTo_inst hd]
    by_cases htuple : cls = .tuple
    · subst htuple
      exact inlaid_emptyTuple
    · rw [TypeData.hint_cls htuple, formatInstance_nil _ htuple, ← BuiltinClass.text_piece hcls]
      exact inlaid_piece cls
  | @generic depth id cls args hcls _ hne hargs hid ih =>
    obtain ⟨fuel, rfl⟩ : ∃ n, fuel = n + 1 := ⟨fuel - 1, by omega⟩
    have hd := (find?_eq_some_iff.mp hid).1
    rw [hintUpTo_succ hd, formatUpTo_inst hd, TypeData.hint_generic hne,
      formatInstance_of_ne_nil _ _ hne]
    apply inlaid_arguments _ _ _ _ hne
    · intro arg hmem
      by_cases hellipsis : arg = .ellipsis
      · subst hellipsis
        rw [hintUpTo_ellipsis hbase]
        exact inlaid_piece .ellipsis
      · rw [if_neg (by simpa using hellipsis)]
        exact ih arg hmem hellipsis fuel (by omega)
    · rintro rfl
      simp at hcls
  | @classObject depth id inner hinner hid ih =>
    obtain ⟨fuel, rfl⟩ : ∃ n, fuel = n + 1 := ⟨fuel - 1, by omega⟩
    have hd := (find?_eq_some_iff.mp hid).1
    have htype : BuiltinClass.type.name ++ "[" = "type[" := rfl
    have harguments := inlaid_arguments .type (by decide) (t.hintUpTo (fuel + 1))
      (t.formatUpTo (fuel + 1)) (List.cons_ne_nil inner []) fun arg hmem => by
        obtain rfl := List.mem_singleton.mp hmem
        exact ih fuel (by omega)
    rw [List.map_singleton, List.map_singleton, String.intercalate_singleton, htype] at harguments
    rw [hintUpTo_succ hd, formatUpTo, hd]
    exact harguments
  | @union depth id members htwo _ _ _ _ hid ih =>
    obtain ⟨fuel, rfl⟩ : ∃ n, fuel = n + 1 := ⟨fuel - 1, by omega⟩
    have hd := (find?_eq_some_iff.mp hid).1
    rw [hintUpTo_succ hd, formatUpTo, hd]
    cases members with
    | nil => cases htwo
    | cons first others =>
      have hpieces : (TypeData.hint (t.hintUpTo (fuel + 1)) (.union (first :: others))).pieces =
          between Symbol.pipe.piece (fun m => (t.hintUpTo (fuel + 1) m).pieces) (first :: others) := by
        rw [← between_map, List.map_cons, ← Hint.pieces_alternatives]
        rfl
      rw [hpieces]
      exact inlaid_between separates_pipe (List.cons_ne_nil first others)
        fun m hm => ih m hm fuel (by omega)

end TypeTable

/-! ## Tokens -/

private theorem isScanned_name {cls : BuiltinClass} (hnone : cls ≠ .none)
    (hellipsis : cls ≠ .ellipsis) :
    Scanner.IsScanned ⟨.name, cls.name⟩ := by
  have hall : BuiltinClass.all.all (·.name.toList.all Lexeme.startsName) = true := by
    decide +kernel
  have hmem : cls ∈ BuiltinClass.all := by cases cls <;> decide
  have hne : cls.name.toList ≠ [] := by cases cls <;> decide
  have hfree : Scanner.wordKind cls.name = .name := by
    cases cls <;> first | rfl | contradiction
  have hstarts := List.all_eq_true.mp (List.all_eq_true.mp hall cls hmem)
  obtain ⟨c, cs, hcs⟩ := List.exists_cons_of_ne_nil hne
  rw [hcs] at hstarts
  apply Scanner.isScanned_word (by simp) _ hfree
  exact ⟨c, cs, hcs, hstarts c (.head cs),
    fun d hd => Scanner.continuesName_of_startsName (hstarts d (.tail c hd))⟩

private theorem isRow_piece (cls : BuiltinClass) : Scanner.IsRow [cls.piece] := by
  have hname (hnone : cls ≠ .none) (hellipsis : cls ≠ .ellipsis) :
      Scanner.IsRow [⟨.name, cls.name⟩] :=
    .single (isScanned_name hnone hellipsis) (fun _ => rfl) (by cases cls <;> decide)
  cases cls with
  | none => exact .keyword .noneKw
  | ellipsis => exact .symbol .ellipsis rfl rfl
  | _ => exact hname (by decide) (by decide)

namespace Hint

/-- A type expression is a row. -/
theorem isRow (h : Hint) : Scanner.IsRow h.pieces := by
  induction h using Hint.induction with
  | cls c => exact isRow_piece c
  | subscript c args ih =>
    have hindex : Scanner.IsRow (indexPieces args) := by
      cases args with
      | nil => exact .parens .nil
      | cons arg args =>
        rw [indexPieces_cons]
        exact .between (.symbol .comma rfl rfl) ih
    exact (isRow_piece c).append (.brackets hindex)
  | or left right ihleft ihright =>
    exact ihleft.append ((Scanner.IsRow.symbol .pipe rfl rfl).append ihright)

end Hint
end LiveCheck
