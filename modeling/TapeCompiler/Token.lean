import TapeCompiler.Symbol

/-!
# Tokens

A token is a symbol, or the end of the text, together with the line it was met on.
-/

namespace TapeCompiler

/-- What a token stands for. -/
inductive TokenKind where
  | symbol (s : Symbol)
  | endOfText
deriving DecidableEq, Repr, Inhabited

/-- A token and its line, counted from 1. -/
structure Token where
  kind : TokenKind
  line : Nat
deriving DecidableEq, Repr, Inhabited

namespace Token

/-- The character a token was read from. The end of the text has none. -/
def char? (t : Token) : Option Char :=
  match t.kind with
  | .symbol s => some s.toChar
  | .endOfText => none

/-- The instruction characters of a list of tokens, in order. -/
def text (tokens : List Token) : String :=
  String.ofList (tokens.filterMap char?)

end Token

end TapeCompiler
