/-!
# Patterns of paths

A pattern describes paths. `?` stands for any character and `*` for any text, slashes included. `**`
between slashes stands for any directories. `[a-z]` stands for one of some characters, `[!a-z]` for
any other one, and `{a,b}` for one of some patterns. A backslash takes the meaning off the
character behind it.
-/

namespace LiveCheck

inductive GlobPart
  | literal (c : Char)
  /-- `?` -/
  | anyChar
  /-- `*` -/
  | anyText
  /-- `**` and a slash at the beginning: nothing, or directories. -/
  | leadingDirectories
  /-- A slash and `**` at the end: all that is inside. -/
  | contents
  /-- `**` between slashes: one slash, or directories between two. -/
  | innerDirectories
  /-- One of some ranges of characters, or none of them. -/
  | oneOf (negated : Bool) (ranges : List (Char × Char))
  | alternatives (branches : List (List GlobPart))
deriving Repr, Inhabited

structure Glob where
  parts : List GlobPart
deriving Repr, Inhabited

namespace Glob

/-! ## Matching -/

/-- The ends of a text, the text itself first. -/
def suffixes : List Char → List (List Char)
  | [] => [[]]
  | c :: cs => (c :: cs) :: suffixes cs

/-- What is left behind each slash of a text. -/
def behindSlashes : List Char → List (List Char)
  | [] => []
  | c :: cs => if c = '/' then cs :: behindSlashes cs else behindSlashes cs

mutual

/-- What may be left of a text when a part has taken its share from the front. -/
def restsOfPart : GlobPart → List Char → List (List Char)
  | .literal c, s => if s.head? = some c then [s.tail] else []
  | .anyChar, s => if s.isEmpty then [] else [s.tail]
  | .anyText, s => suffixes s
  | .leadingDirectories, s => s :: behindSlashes s
  | .contents, s => if s.head? = some '/' then suffixes s.tail else []
  | .innerDirectories, s =>
    if s.head? = some '/' then s.tail :: behindSlashes s.tail else []
  | .oneOf negated ranges, s =>
    match s with
    | [] => []
    | c :: cs => if ranges.any (fun r => r.1 ≤ c && c ≤ r.2) != negated then [cs] else []
  | .alternatives branches, s => restsOfBranches branches s

/-- What may be left of a text when parts have taken their shares, one after the other. -/
def restsOfParts : List GlobPart → List Char → List (List Char)
  | [], s => [s]
  | part :: parts, s => (restsOfPart part s).flatMap (restsOfParts parts)

/-- What may be left of a text when one of some patterns has taken its share. -/
def restsOfBranches : List (List GlobPart) → List Char → List (List Char)
  | [], _ => []
  | branch :: branches, s => restsOfParts branch s ++ restsOfBranches branches s

end

/-- Whether a pattern describes a path. The pattern `**` describes every path. -/
def isMatch (g : Glob) (path : String) : Bool :=
  match g.parts with
  | [.leadingDirectories] => true
  | parts => (restsOfParts parts path.toList).any List.isEmpty

/-! ## Reading patterns -/

/-- Patterns being read, the innermost braces first. Each level holds its branches and each branch
its parts, the latest first. The outermost level has one branch. -/
abbrev Levels := List (List (List GlobPart))

def push (part : GlobPart) : Levels → Levels
  | (branch :: branches) :: levels => ((part :: branch) :: branches) :: levels
  | levels => levels

/-- The parts of the branch being read, the latest first. -/
def current (levels : Levels) : List GlobPart := (levels.head?.bind List.head?).getD []

/-- Replaces the latest part, which is the slash before `**`. Directories that follow directories
change nothing. -/
def replaceSlash (part : GlobPart) : Levels → Levels
  | ((latest :: branch) :: branches) :: levels =>
    let part := match latest with
      | .leadingDirectories => .leadingDirectories
      | .contents => .contents
      | _ => part
    ((part :: branch) :: branches) :: levels
  | levels => levels

/-- Ends the branches of the innermost braces. Empty branches do not count. -/
def close? : Levels → Option Levels
  | branches :: level :: levels =>
    match branches.reverse.filter (!·.isEmpty) with
    | [] => some (level :: levels)
    | kept => some (push (.alternatives (kept.map List.reverse)) (level :: levels))
  | _ => none

/-- Reads the rest of a class of characters. `isFirst` says whether nothing was read of it, and
`inRange` whether the latest character was a hyphen behind another one; ranges come latest first. -/
def readClass? (isFirst inRange : Bool) (ranges : List (Char × Char)) :
    List Char → Option (List (Char × Char) × List Char)
  | [] => none
  | c :: cs =>
    if c = ']' && !isFirst then
      some ((if inRange then ('-', '-') :: ranges else ranges).reverse, cs)
    else if c = '-' && !isFirst && !inRange then readClass? false true ranges cs
    else
      match inRange, ranges with
      | true, (low, _) :: rest =>
        if c < low then none else readClass? false false ((low, c) :: rest) cs
      | _, _ => readClass? false false ((c, c) :: ranges) cs

/-- Reads two stars, behind the character `previous`; the answer is what is left of the pattern. -/
def readStars (levels : Levels) (previous : Option Char) (cs : List Char) : Levels × List Char :=
  let plain := (push .anyText (push .anyText levels), cs)
  let isNested := 1 < levels.length
  if (current levels).isEmpty then
    match cs with
    | [] => (push .leadingDirectories levels, [])
    | '/' :: rest => (push .leadingDirectories levels, rest)
    | _ => plain
  else if previous != some '/' &&
      !(isNested && (previous == some ',' || previous == some '\x7b')) then plain
  else
    match cs with
    | [] => (replaceSlash .contents levels, [])
    | c :: rest =>
      if isNested && (c = ',' || c = '\x7d') then (replaceSlash .contents levels, cs)
      else if c = '/' then (replaceSlash .innerDirectories levels, rest)
      else plain

/-- Reads a pattern, of which at most `fuel` characters are left. -/
def readUpTo : Nat → Levels → Option Char → List Char → Option Levels
  | _, levels, _, [] => some levels
  | 0, _, _, _ => none
  | fuel + 1, levels, previous, c :: cs =>
    match c with
    | '?' => readUpTo fuel (push .anyChar levels) (some c) cs
    | '*' =>
      match cs with
      | '*' :: rest =>
        let (levels, rest') := readStars levels previous rest
        readUpTo fuel levels (if rest'.length < rest.length then some '/' else some c) rest'
      | _ => readUpTo fuel (push .anyText levels) (some c) cs
    | '[' =>
      let (negated, body) := match cs with
        | '!' :: rest | '^' :: rest => (true, rest)
        | _ => (false, cs)
      match readClass? true false [] body with
      | some (ranges, rest) => readUpTo fuel (push (.oneOf negated ranges) levels) (some ']') rest
      | none => none
    | '\x7b' => readUpTo fuel ([[]] :: levels) (some c) cs
    | '\x7d' =>
      match close? levels with
      | some levels => readUpTo fuel levels (some c) cs
      | none => none
    | ',' =>
      match levels with
      | branches :: level :: rest => readUpTo fuel (([] :: branches) :: level :: rest) (some c) cs
      | _ => readUpTo fuel (push (.literal c) levels) (some c) cs
    | '\\' =>
      match cs with
      | escaped :: rest => readUpTo fuel (push (.literal escaped) levels) (some escaped) rest
      | [] => none
    | _ => readUpTo fuel (push (.literal c) levels) (some c) cs

/-- The pattern that a text stands for; none if a bracket or a brace is not closed, a brace is not
opened, a range runs backwards, or nothing follows the last backslash. -/
def parse? (text : String) : Option Glob :=
  match readUpTo text.length [[[]]] none text.toList with
  | some [[parts]] => some ⟨parts.reverse⟩
  | _ => none

end Glob
end LiveCheck
