import Ipmb.Routing.RuleLexer
import Mathlib.Algebra.Group.Int.Defs

open ipmb.rule_lexer

namespace ipmb.rule_parser

inductive ipmb_rule_op_t where
  | IPMB_RULE_CMP_EQ
  | IPMB_RULE_CMP_GT
  | IPMB_RULE_CMP_LT
  | IPMB_RULE_RANGE
  deriving Repr, DecidableEq

/-- The two character arrays hold the characters before their terminator. -/
structure ipmb_rule_ast_t where
  field : List UInt8
  op : ipmb_rule_op_t
  value : Int32
  high : Int32
  action : List UInt8
  priority : Int32
  deriving DecidableEq

/-- The AST after `memset(out, 0, sizeof(*out))`. -/
def ipmb_rule_ast_t.zero : ipmb_rule_ast_t :=
  { field := [], op := .IPMB_RULE_CMP_EQ, value := 0, high := 0, action := [], priority := 0 }

def LONG_MAX : Int := 2 ^ 63 - 1

def LONG_MIN : Int := -2 ^ 63

/-- The value of a character as a digit, letters continuing after nine. -/
def digit_value (c : UInt8) : Option Nat :=
  if 0x30 ≤ c ∧ c ≤ 0x39 then some (c.toNat - 0x30)
  else if 0x61 ≤ c ∧ c ≤ 0x7a then some (c.toNat - 0x61 + 10)
  else if 0x41 ≤ c ∧ c ≤ 0x5a then some (c.toNat - 0x41 + 10)
  else none

def is_digit (base : Nat) (c : UInt8) : Bool :=
  match digit_value c with
  | some d => d < base
  | none => false

/-- The number that the longest run of digits at the pointer denotes. -/
def scan_digits (base : Nat) (p : List UInt8) : Nat :=
  (p.takeWhile (is_digit base)).foldl (fun acc c => acc * base + (digit_value c).getD 0) 0

/-- Base and digits of a C integer literal: `0x` and a hexadecimal digit start
base 16, another leading zero base 8. -/
def literal_value (p : List UInt8) : Nat :=
  match p with
  | 0x30 :: x :: d :: _ =>
    if (x = 0x78 ∨ x = 0x58) ∧ is_digit 16 d then scan_digits 16 (p.drop 2) else scan_digits 8 p
  | 0x30 :: _ => scan_digits 8 p
  | _ => scan_digits 10 p

/-- `strtol` with base 0 and a 64-bit `long`: white space, a sign, a literal;
values that do not fit end at the bounds. -/
def strtol (s : List UInt8) : Int :=
  match s.dropWhile isspace with
  | 0x2d :: p => max LONG_MIN (-(literal_value p : Int))
  | 0x2b :: p => min LONG_MAX (literal_value p : Int)
  | p => min LONG_MAX (literal_value p : Int)

/-- The cast of a `long` to `int32_t`. -/
def int32_of_long (n : Int) : Int32 := Int32.ofInt n

/-- The string constants of the parser, as bytes. -/
def str_gt : List UInt8 := [0x3e]

def str_gt_word : List UInt8 := [0x67, 0x74]

def str_lt : List UInt8 := [0x3c]

def str_lt_word : List UInt8 := [0x6c, 0x74]

def str_range : List UInt8 := [0x72, 0x61, 0x6e, 0x67, 0x65]

def parse_op (s : List UInt8) : ipmb_rule_op_t :=
  if s = str_gt ∨ s = str_gt_word then .IPMB_RULE_CMP_GT
  else if s = str_lt ∨ s = str_lt_word then .IPMB_RULE_CMP_LT
  else .IPMB_RULE_CMP_EQ

/-- `strncpy` into a zeroed array of 32 characters, leaving the terminator. -/
def strncpy_31 (s : List UInt8) : List UInt8 := s.take 31

def ipmb_rule_parse (text : List UInt8) : ipmb_status_t × ipmb_rule_ast_t :=
  let out := ipmb_rule_ast_t.zero
  let tok := ipmb_rule_lex text 10
  let n := tok.length
  if n < 3 then (.IPMB_ERR_INVALID, out)
  else
    let out := { out with priority := 10 }
    if tok.getD 0 [] = str_range then
      if n < 4 then (.IPMB_ERR_INVALID, out)
      else
        let out := { out with
          field := strncpy_31 (tok.getD 1 [])
          op := .IPMB_RULE_RANGE
          value := int32_of_long (strtol (tok.getD 2 []))
          high := int32_of_long (strtol (tok.getD 3 [])) }
        let out := if n > 4 then { out with action := strncpy_31 (tok.getD 4 []) } else out
        (.IPMB_OK, out)
    else
      let out := { out with
        field := strncpy_31 (tok.getD 0 [])
        op := parse_op (tok.getD 1 [])
        value := int32_of_long (strtol (tok.getD 2 [])) }
      let out := if n > 3 then { out with action := strncpy_31 (tok.getD 3 []) } else out
      let out := if n > 4 then { out with priority := int32_of_long (strtol (tok.getD 4 [])) } else out
      (.IPMB_OK, out)

end ipmb.rule_parser
