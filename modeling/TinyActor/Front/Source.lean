/-
The check of the tokens, `check_syntax` of `lib/bootstrap/driver.ta`.

Of a message only what says what is wrong is here, not where.
-/
import TinyActor.Front.Parser

namespace TinyActor.Front

/-- `scan_tokens`, with the numbers of delimiters that are open. -/
def scanTokens : List Token → Nat → Nat → Nat → Option String
  | [], _, _, _ => none
  | tok :: rest, paren, brack, brace =>
      match tok.type with
      | .eof =>
          if 0 < paren then some "unbalanced '(' — missing ')'"
          else if 0 < brack then some "unbalanced '[' — missing ']'"
          else if 0 < brace then some "unbalanced '\x7b' — missing '\x7d'"
          else none
      | .unterminated => some "unterminated string literal"
      | .unknown => some "unexpected character"
      | .lparen => scanTokens rest (paren + 1) brack brace
      | .rparen =>
          if 0 < paren then scanTokens rest (paren - 1) brack brace else some "unbalanced ')'"
      | .lbracket => scanTokens rest paren (brack + 1) brace
      | .rbracket =>
          if 0 < brack then scanTokens rest paren (brack - 1) brace else some "unbalanced ']'"
      | .lbrace => scanTokens rest paren brack (brace + 1)
      | .rbrace =>
          if 0 < brace then scanTokens rest paren brack (brace - 1) else some "unbalanced '\x7d'"
      | _ => scanTokens rest paren brack brace

def checkSyntax (toks : List Token) : Option String := scanTokens toks 0 0 0

end TinyActor.Front
