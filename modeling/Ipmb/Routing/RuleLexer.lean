import Ipmb.Types

namespace ipmb.rule_lexer

/-- White space in the C locale: blank, and the controls from tab to carriage
return. -/
def isspace (c : UInt8) : Bool := c == 0x20 || (0x09 ≤ c && c ≤ 0x0d)

/-- A character of a word: neither the terminator nor white space. -/
def is_word (c : UInt8) : Bool := c != 0 && !isspace c

/-- What a pointer into the text points at. The text is read up to its first
NUL; bytes behind that are not part of it. -/
def deref (p : List UInt8) : UInt8 := p.headD 0

/-- A round of the outer loop for each token that still fits. The pointer is
the list of the characters from it on. -/
def lex_loop : Nat → List UInt8 → List (List UInt8)
  | 0, _ => []
  | room + 1, p =>
    if deref p = 0 then []
    else
      let p := p.dropWhile isspace
      if deref p = 0 then []
      else (p.take 31).takeWhile is_word :: lex_loop room (p.dropWhile is_word)

/-- The tokens stored; the C function returns how many there are. -/
def ipmb_rule_lex (text : List UInt8) (max_tokens : Nat) : List (List UInt8) :=
  lex_loop max_tokens text

end ipmb.rule_lexer
