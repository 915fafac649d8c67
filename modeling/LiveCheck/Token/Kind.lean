/-!
# Kinds of tokens

A token is a layout mark, a name, a literal, a keyword or a symbol.
-/

namespace LiveCheck

inductive Keyword
  | falseKw | noneKw | trueKw | andKw | asKw | assertKw | asyncKw | awaitKw | breakKw | classKw
  | continueKw | defKw | delKw | elifKw | elseKw | exceptKw | finallyKw | forKw | fromKw | globalKw
  | ifKw | importKw | inKw | isKw | lambdaKw | nonlocalKw | notKw | orKw | passKw | raiseKw
  | returnKw | tryKw | whileKw | withKw | yieldKw
deriving Repr, DecidableEq, Inhabited

namespace Keyword

def text : Keyword → String
  | falseKw => "False" | noneKw => "None" | trueKw => "True" | andKw => "and" | asKw => "as"
  | assertKw => "assert" | asyncKw => "async" | awaitKw => "await" | breakKw => "break"
  | classKw => "class" | continueKw => "continue" | defKw => "def" | delKw => "del"
  | elifKw => "elif" | elseKw => "else" | exceptKw => "except" | finallyKw => "finally"
  | forKw => "for" | fromKw => "from" | globalKw => "global" | ifKw => "if"
  | importKw => "import" | inKw => "in" | isKw => "is" | lambdaKw => "lambda"
  | nonlocalKw => "nonlocal" | notKw => "not" | orKw => "or" | passKw => "pass"
  | raiseKw => "raise" | returnKw => "return" | tryKw => "try" | whileKw => "while"
  | withKw => "with" | yieldKw => "yield"

def all : List Keyword :=
  [falseKw, noneKw, trueKw, andKw, asKw, assertKw, asyncKw, awaitKw, breakKw, classKw, continueKw,
    defKw, delKw, elifKw, elseKw, exceptKw, finallyKw, forKw, fromKw, globalKw, ifKw, importKw,
    inKw, isKw, lambdaKw, nonlocalKw, notKw, orKw, passKw, raiseKw, returnKw, tryKw, whileKw,
    withKw, yieldKw]

def ofText? (word : String) : Option Keyword := all.find? (·.text == word)

end Keyword

/-- Brackets, punctuation and operators. -/
inductive Symbol
  | openParen | closeParen | openBracket | closeBracket | openBrace | closeBrace
  | colon | comma | semicolon | dot | ellipsis | arrow | atSign | equals | colonEquals
  | plus | minus | star | doubleStar | slash | doubleSlash | percent | pipe | ampersand | caret
  | tilde | leftShift | rightShift | less | greater | lessEquals | greaterEquals | equalsEquals
  | notEquals
  | plusEquals | minusEquals | starEquals | doubleStarEquals | slashEquals | doubleSlashEquals
  | percentEquals | pipeEquals | ampersandEquals | caretEquals | leftShiftEquals
  | rightShiftEquals | atEquals
deriving Repr, DecidableEq, Inhabited

namespace Symbol

def text : Symbol → String
  | openParen => "(" | closeParen => ")" | openBracket => "[" | closeBracket => "]"
  | openBrace => "\x7b" | closeBrace => "\x7d" | colon => ":" | comma => "," | semicolon => ";"
  | dot => "." | ellipsis => "..." | arrow => "->" | atSign => "@" | equals => "="
  | colonEquals => ":=" | plus => "+" | minus => "-" | star => "*" | doubleStar => "**"
  | slash => "/" | doubleSlash => "//" | percent => "%" | pipe => "|" | ampersand => "&"
  | caret => "^" | tilde => "~" | leftShift => "<<" | rightShift => ">>" | less => "<"
  | greater => ">" | lessEquals => "<=" | greaterEquals => ">=" | equalsEquals => "=="
  | notEquals => "!=" | plusEquals => "+=" | minusEquals => "-=" | starEquals => "*="
  | doubleStarEquals => "**=" | slashEquals => "/=" | doubleSlashEquals => "//="
  | percentEquals => "%=" | pipeEquals => "|=" | ampersandEquals => "&=" | caretEquals => "^="
  | leftShiftEquals => "<<=" | rightShiftEquals => ">>=" | atEquals => "@="

/-- The operator that an augmented assignment applies. -/
def augmented? : Symbol → Option Symbol
  | plusEquals => some plus
  | minusEquals => some minus
  | starEquals => some star
  | doubleStarEquals => some doubleStar
  | slashEquals => some slash
  | doubleSlashEquals => some doubleSlash
  | percentEquals => some percent
  | pipeEquals => some pipe
  | ampersandEquals => some ampersand
  | caretEquals => some caret
  | leftShiftEquals => some leftShift
  | rightShiftEquals => some rightShift
  | atEquals => some atSign
  | _ => none

def opens : Symbol → Bool
  | openParen | openBracket | openBrace => true
  | _ => false

def closes : Symbol → Bool
  | closeParen | closeBracket | closeBrace => true
  | _ => false

/-- All symbols, those with more characters first. -/
def all : List Symbol :=
  [doubleStarEquals, doubleSlashEquals, leftShiftEquals, rightShiftEquals, ellipsis,
    doubleStar, doubleSlash, leftShift, rightShift, lessEquals, greaterEquals, equalsEquals,
    notEquals, arrow, colonEquals, plusEquals, minusEquals, starEquals, slashEquals,
    percentEquals, pipeEquals, ampersandEquals, caretEquals, atEquals,
    openParen, closeParen, openBracket, closeBracket, openBrace, closeBrace, colon, comma,
    semicolon, dot, atSign, equals, plus, minus, star, slash, percent, pipe, ampersand, caret,
    tilde, less, greater]

/-- The symbols with the characters of their spelling. -/
def spellings : List (List Char × Symbol) := all.map fun mark => (mark.text.toList, mark)

/-- The symbol at the beginning of a text, the longest that fits, and the number of its
characters. -/
def leading? (cs : List Char) : Option (Symbol × Nat) :=
  (spellings.find? fun entry => entry.1.isPrefixOf cs).map fun (spelling, mark) =>
    (mark, spelling.length)

/-- No symbol is spelled with no character. -/
theorem leading?_pos {cs : List Char} {mark : Symbol} {n : Nat}
    (h : leading? cs = some (mark, n)) : 0 < n := by
  have spelled : ∀ entry ∈ spellings, 0 < entry.1.length := by decide
  obtain ⟨entry, he, heq⟩ := Option.map_eq_some_iff.1 h
  have := spelled entry (List.mem_of_find?_eq_some he)
  simp only [Prod.mk.injEq] at heq
  omega

end Symbol

inductive TokenKind
  | endOfFile
  | newline
  | indent
  | dedent
  /-- A character that no token can begin with. -/
  | unknown
  | name
  | int
  | float
  | complex
  | string
  | bytes
  | keyword (word : Keyword)
  | symbol (mark : Symbol)
deriving Repr, DecidableEq, Inhabited

namespace TokenKind

instance : Coe Keyword TokenKind := ⟨keyword⟩

instance : Coe Symbol TokenKind := ⟨symbol⟩

/-- The spelling of a kind that has one, or its name in angle brackets. -/
def text : TokenKind → String
  | endOfFile => "<eof>"
  | newline => "<newline>"
  | indent => "<indent>"
  | dedent => "<dedent>"
  | unknown => "<unknown>"
  | name => "<name>"
  | int | float | complex => "<number>"
  | string | bytes => "<string>"
  | keyword word => word.text
  | symbol mark => mark.text

def isKeyword : TokenKind → Bool
  | keyword _ => true
  | _ => false

/-- Whether the kind marks the layout of lines, the end of the text apart. -/
def isLayout : TokenKind → Bool
  | newline | indent | dedent => true
  | _ => false

/-- Whether a logical line ends before a token of this kind. -/
def endsLine : TokenKind → Bool
  | newline | indent | dedent | endOfFile => true
  | _ => false

/-- Whether a statement that begins with the token may go on behind its line. -/
def beginsCompound : TokenKind → Bool
  | keyword .ifKw | keyword .whileKw | keyword .forKw | keyword .tryKw | keyword .withKw
  | keyword .defKw | keyword .classKw | symbol .atSign => true
  | _ => false

end TokenKind
end LiveCheck
