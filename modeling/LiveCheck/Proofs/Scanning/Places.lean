import LiveCheck.Proofs.Scanning.Actions

/-!
# The places of tokens

The tokens of a text follow each other without overlap, those that are not layout have characters,
and the last one is the end of the text.
-/

namespace LiveCheck

open Text

/-- A token ends before another one begins. -/
def Token.Precedes (x y : Token) : Prop := x.span.stop ≤ y.span.start

section

variable {tokens : List Token} {token : Token}

/-- Tokens that do not overlap begin behind the first of them. -/
theorem Token.start_le_start (hordered : tokens.Pairwise Token.Precedes)
    (horder : ∀ x ∈ tokens, x.span.start ≤ x.span.stop) {first : Token}
    (hfirst : tokens.head? = some first) (h : token ∈ tokens) :
    first.span.start ≤ token.span.start := by
  cases tokens with
  | nil => cases h
  | cons x tokens =>
    cases hfirst
    rcases List.mem_cons.mp h with rfl | h
    · exact Nat.le_refl _
    · exact Nat.le_trans (horder first List.mem_cons_self) (List.rel_of_pairwise_cons hordered h)

/-- Tokens that do not overlap end before the last of them ends. -/
theorem Token.stop_le_stop (hordered : tokens.Pairwise Token.Precedes)
    (horder : ∀ x ∈ tokens, x.span.start ≤ x.span.stop) {last : Token}
    (hlast : tokens.getLast? = some last) (h : token ∈ tokens) :
    token.span.stop ≤ last.span.stop := by
  obtain ⟨before, rfl⟩ := List.getLast?_eq_some_iff.mp hlast
  rcases List.mem_append.mp h with h | h
  · have hprecedes : token.Precedes last :=
      (List.pairwise_append.mp hordered).2.2 token h last (List.mem_singleton_self last)
    exact Nat.le_trans hprecedes (horder last (List.mem_append_right _ (List.mem_singleton_self last)))
  · obtain rfl := List.mem_singleton.mp h
    exact Nat.le_refl _

end

/-- A token stands between two offsets, it does not end the text, and it has characters if it is
not layout. -/
structure Token.Within (token : Token) (start stop : Nat) : Prop where
  inner : token.kind ≠ .endOfFile
  start : start ≤ token.span.start
  stop : token.span.stop ≤ stop
  order : token.span.start ≤ token.span.stop
  size : token.kind.endsLine = false → token.span.start < token.span.stop

private theorem Token.Within.mono {token : Token} {m n m' n' : Nat} (h : token.Within m n)
    (hm : m' ≤ m)
    (hn : n ≤ n') : token.Within m' n' :=
  ⟨h.inner, Nat.le_trans hm h.start, Nat.le_trans h.stop hn, h.order, h.size⟩

namespace Scanner

variable {s t r : Scanner} {n : Nat} {kind : TokenKind} {c : Char}

/-- A later state of the scan: tokens between the two offsets have been added. -/
structure Grows (s t : Scanner) : Prop where
  offset : s.offset ≤ t.offset
  tokens : ∃ new : List Token, t.tokens.toList = s.tokens.toList ++ new ∧
    new.Pairwise Token.Precedes ∧ ∀ token ∈ new, token.Within s.offset t.offset

private theorem Grows.of_tokens (hoffset : s.offset ≤ t.offset) (htokens : t.tokens = s.tokens) :
    s.Grows t := ⟨hoffset, [], by rw [htokens, List.append_nil], .nil, nofun⟩

private theorem Grows.refl (s : Scanner) : s.Grows s := .of_tokens (Nat.le_refl _) rfl

private theorem Grows.trans (h : s.Grows t) (h' : t.Grows r) : s.Grows r := by
  obtain ⟨hoffset, new, htokens, hordered, hwithin⟩ := h
  obtain ⟨hoffset', new', htokens', hordered', hwithin'⟩ := h'
  refine ⟨Nat.le_trans hoffset hoffset', new ++ new', ?_, ?_, fun token htoken => ?_⟩
  · rw [htokens', htokens, List.append_assoc]
  · refine List.pairwise_append.mpr ⟨hordered, hordered', fun x hx y hy => ?_⟩
    exact Nat.le_trans (hwithin x hx).stop (hwithin' y hy).start
  · rcases List.mem_append.mp htoken with htoken | htoken
    · exact (hwithin token htoken).mono (Nat.le_refl _) hoffset'
    · exact (hwithin' token htoken).mono hoffset (Nat.le_refl _)

private theorem grows_skip (s : Scanner) (n : Nat) : s.Grows (s.skip n) :=
  .of_tokens (Nat.le_add_right _ _) rfl

private theorem grows_note (s : Scanner) (code n : Nat) : s.Grows (s.note code n) :=
  .of_tokens (Nat.le_refl _) rfl

private theorem grows_mark (s : Scanner) (h : kind.isLayout = true) : s.Grows (s.mark kind) where
  offset := Nat.le_refl _
  tokens := by
    refine ⟨[⟨kind, ⟨s.offset, s.offset⟩, ""⟩], by simp [mark], List.pairwise_singleton _ _,
      fun token htoken => ?_⟩
    rw [List.mem_singleton.mp htoken]
    refine ⟨fun hk => ?_, Nat.le_refl _, Nat.le_refl _, Nat.le_refl _, fun hline => ?_⟩
    · rw [show kind = .endOfFile from hk] at h
      cases h
    · rw [show kind.endsLine = true from TokenKind.endsLine_of_isLayout h] at hline
      cases hline

private theorem grows_take (s : Scanner) (hk : kind ≠ .endOfFile)
    (h : kind.endsLine = false → 0 < n ∧ s.rest ≠ []) :
    s.Grows (s.take kind n) where
  offset := Nat.le_add_right _ _
  tokens := by
    refine ⟨[⟨kind, ⟨s.offset, (s.skip n).offset⟩, String.ofList (s.rest.take n)⟩], by simp [take],
      List.pairwise_singleton _ _, fun token htoken => ?_⟩
    rw [List.mem_singleton.mp htoken]
    refine ⟨hk, Nat.le_refl _, Nat.le_refl _, Nat.le_add_right _ _, fun hline => ?_⟩
    obtain ⟨hn, hrest⟩ := h hline
    refine Nat.lt_add_of_pos_right (byteLength_pos fun hnil => ?_)
    rcases List.take_eq_nil_iff.mp hnil with hzero | hnil
    · omega
    · exact hrest hnil

private theorem Grows.congr (h : s.Grows t) (htokens : r.tokens = t.tokens)
    (hoffset : r.offset = t.offset) :
    s.Grows r := h.trans (.of_tokens (Nat.le_of_eq hoffset.symm) htokens)

private theorem Action.grows (h : s.Action t) : s.Grows t := by
  have hline (n : Nat) : s.Grows (s.take .newline n) := s.grows_take nofun nofun
  have hblock (n : Nat) : s.Grows (s.take .indent n) := s.grows_take nofun nofun
  cases h with
  | skip n => exact s.grows_skip n
  | note code n => exact s.grows_note code n
  | turn | enter => exact .of_tokens (Nat.le_refl _) rfl
  | newline n => exact (hline n).congr rfl rfl
  | indent n => exact (hblock n).congr rfl rfl
  | dedent => exact (s.grows_mark rfl).congr rfl rfl
  | token kind n _ hkind _ _ hpos hle =>
    refine s.grows_take (fun hend => ?_) fun _ => ⟨hpos, ?_⟩
    · rw [hend] at hkind
      cases hkind
    · exact List.length_pos_iff.mp (Nat.lt_of_lt_of_le hpos hle)
  | opening mark _ _ hle | closing mark _ _ hle =>
    have htake : s.Grows (s.take mark 1) :=
      s.grows_take nofun fun _ => ⟨Nat.one_pos, List.length_pos_iff.mp hle⟩
    exact htake.congr rfl rfl

theorem grows_run (h : s.Rests) : s.Grows s.run := by
  have hacts := acts_run h
  generalize s.run = t at hacts ⊢
  induction hacts with
  | refl => exact .refl s
  | tail _ hstep ih => exact ih.trans hstep.grows

private theorem grows_dedents (indents : List Nat) (s : Scanner) :
    s.Grows (indents.foldl (fun s _ => s.mark .dedent) s) := by
  induction indents generalizing s with
  | nil => exact .refl s
  | cons _ indents ih => exact (s.grows_mark rfl).trans (ih (s.mark .dedent))

/-- The end of the scan adds the end of the text. -/
theorem grows_finish (s : Scanner) : ∃ t : Scanner, s.Grows t ∧ s.finish = t.mark .endOfFile := by
  refine ⟨_, ?_, rfl⟩
  refine Grows.trans ?_ (grows_dedents _ _)
  split
  · exact (s.grows_mark rfl).congr rfl rfl
  · exact .of_tokens (Nat.le_refl _) rfl

end Scanner

/-- The tokens of a text stand in order, and the last of them is the only one that ends the text. -/
structure Token.Ordered (tokens : Array Token) : Prop where
  ordered : tokens.toList.Pairwise Token.Precedes
  order : ∀ token ∈ tokens, token.span.start ≤ token.span.stop
  size : ∀ token ∈ tokens, token.kind.endsLine = false → token.span.start < token.span.stop
  last : ∃ before stop, tokens.toList = before ++ [⟨.endOfFile, stop, ""⟩] ∧
    ∀ token ∈ before, token.kind ≠ .endOfFile

/-- The tokens of a text are in order and end with its end. -/
theorem ordered_scan (text : String) : Token.Ordered (scan text).tokens := by
  obtain ⟨t, hgrows, hfinish⟩ := (Scanner.start text).run.grows_finish
  obtain ⟨-, new, hnew, hordered, hwithin⟩ := (Scanner.grows_run (Scanner.rests_start text)).trans hgrows
  have htokens : (scan text).tokens.toList =
      new ++ [⟨.endOfFile, ⟨t.offset, t.offset⟩, ""⟩] := by
    rw [scan, hfinish, Scanner.mark, Array.toList_push, hnew]
    rfl
  have hall (token : Token) (h : token ∈ (scan text).tokens) :
      token ∈ new ∨ token = ⟨.endOfFile, ⟨t.offset, t.offset⟩, ""⟩ := by
    rw [← Array.mem_toList_iff, htokens] at h
    exact (List.mem_append.mp h).imp_right List.mem_singleton.mp
  refine ⟨?_, fun token h => ?_, fun token h hline => ?_, new, _, htokens,
    fun token htoken => (hwithin token htoken).inner⟩
  · rw [htokens]
    refine List.pairwise_append.mpr ⟨hordered, List.pairwise_singleton _ _, fun x hx y hy => ?_⟩
    rw [List.mem_singleton.mp hy]
    exact (hwithin x hx).stop
  · rcases hall token h with h | rfl
    · exact (hwithin token h).order
    · exact Nat.le_refl _
  · rcases hall token h with h | rfl
    · exact (hwithin token h).size hline
    · cases hline

end LiveCheck
