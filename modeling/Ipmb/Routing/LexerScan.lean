import Ipmb.Routing.RuleWords
import Ipmb.Support.Logged
import Ipmb.Util.Access

open fallible logged words
open ipmb.access

namespace ipmb.rule_lexer

/-- The lexer with a record of the characters of the text that it examines. -/
abbrev Lexer := Logged Fault Nat

/-- `text[i]`. -/
def char_at (text : List UInt8) (i : Nat) : Lexer UInt8 := noting (byte_at text i) fun _ => [i]

/-- `while (cond(p[n], n)) n++;` -/
def scan_while (text : List UInt8) (p : Nat) (cond : UInt8 → Nat → Bool) : Nat → Nat → Lexer Nat
  | 0, _ => throw .outOfFuel
  | fuel + 1, n => do
    let c ← char_at text (p + n)
    if cond c n then scan_while text p cond fuel (n + 1) else pure n

/-- `while (*p && isspace((unsigned char)*p)) p++;` -/
def skip_spaces (text : List UInt8) (p : Nat) : Lexer Nat := do
  let n ← scan_while text p (fun c _ => c != 0 && isspace c) (text.length + 1) 0
  pure (p + n)

/-- `while (p[n] && !isspace((unsigned char)p[n]) && n < 31) n++;` -/
def scan_token (text : List UInt8) (p : Nat) : Lexer Nat :=
  scan_while text p (fun c n => c != 0 && !isspace c && decide (n < 31)) (text.length + 1) 0

/-- The characters copied to a token of 32 bytes, with the terminator stored
behind them. -/
def copy_token (text : List UInt8) (p n : Nat) : Lexer (List UInt8) :=
  if n + 1 > 32 then throw .writeOutOfBounds
  else
    noting (if p + n ≤ text.length then .ok ((text.drop p).take n) else .error .readOutOfBounds)
      fun _ => List.range' p n

/-- `while (*p && !isspace((unsigned char)*p)) p++;` -/
def skip_word (text : List UInt8) (p : Nat) : Lexer Nat := do
  let n ← scan_while text p (fun c _ => c != 0 && !isspace c) (text.length + 1) 0
  pure (p + n)

/-- The outer loop; it returns the count and the tokens stored. -/
def lex_rounds (text : List UInt8) (max_tokens : Nat) :
    Nat → Nat → Nat → List (List UInt8) → Lexer (Nat × List (List UInt8))
  | 0, _, _, _ => throw .outOfFuel
  | fuel + 1, p, count, tokens => do
    let c ← char_at text p
    if c ≠ 0 ∧ count < max_tokens then
      let p ← skip_spaces text p
      let c ← char_at text p
      if c = 0 then pure (count, tokens)
      else
        let n ← scan_token text p
        let token ← copy_token text p n
        let p ← skip_word text p
        lex_rounds text max_tokens fuel p (count + 1) (tokens ++ [token])
    else pure (count, tokens)

/-- Every round that goes on takes a character at least. -/
def ipmb_rule_lex_scan (text : List UInt8) (max_tokens : Nat) : Lexer (Nat × List (List UInt8)) :=
  lex_rounds text max_tokens (text.length + 1) 0 0 []

/-- A text that ends with a terminator. -/
structure Text where
  chars : List UInt8
  ne_zero : ∀ c ∈ chars, c ≠ 0

/-- The memory from the start of a text on, with whatever stands behind it. -/
def Text.memory (s : Text) (behind : List UInt8) : List UInt8 := s.chars ++ 0 :: behind

/-- Nothing behind the terminator was examined. -/
def Inside (s : Text) (log : List Nat) : Prop := ∀ i ∈ log, i ≤ s.chars.length

/-- How far a scan gets. -/
def span_while (cond : UInt8 → Nat → Bool) : Nat → List UInt8 → Nat
  | _, [] => 0
  | n, c :: cs => if cond c n then span_while cond (n + 1) cs + 1 else 0

theorem span_while_eq_takeWhile (q : UInt8 → Bool) (n : Nat) (cs : List UInt8) :
    span_while (fun c _ => q c) n cs = (cs.takeWhile q).length := by
  induction cs generalizing n with
  | nil => rfl
  | cons c cs ih =>
    rw [span_while, List.takeWhile_cons]
    split
    · rw [ih, List.length_cons]
    · rfl

/-- A scan that stops after so many characters at the latest. -/
theorem span_while_eq_take_takeWhile (q : UInt8 → Bool) (bound n : Nat) (cs : List UInt8) :
    span_while (fun c n => q c && decide (n < bound)) n cs = ((cs.take (bound - n)).takeWhile q).length := by
  induction cs generalizing n with
  | nil => simp [span_while]
  | cons c cs ih =>
    rw [span_while]
    by_cases hn : n < bound
    · have hroom : bound - n = (bound - (n + 1)) + 1 := by omega
      rw [hroom, List.take_succ_cons, List.takeWhile_cons, ih]
      simp only [hn, decide_true, Bool.and_true]
      split
      · rw [List.length_cons]
      · rfl
    · have hnone : bound - n = 0 := by omega
      simp [hn, hnone]

section scans
variable {s : Text} {log : List Nat} {p : Nat} (behind : List UInt8)

theorem Inside.cons {i : Nat} (h : Inside s log) (hi : i ≤ s.chars.length) : Inside s (i :: log) := by
  intro j hj
  obtain rfl | hj := List.mem_cons.mp hj
  · exact hi
  · exact h j hj

theorem Text.drop_memory (hp : p ≤ s.chars.length) :
    (s.memory behind).drop p = s.chars.drop p ++ 0 :: behind :=
  List.drop_append_of_le_length hp

/-- Up to the terminator a character can be read. -/
theorem char_at_spec (hp : p ≤ s.chars.length) (hlog : Inside s log) :
    Ensures (char_at (s.memory behind) p) log
      fun c log' => c = deref (s.chars.drop p) ∧ Inside s log' := by
  have hdrop := Text.drop_memory behind hp
  have hread : byte_at (s.memory behind) p = .ok (deref (s.chars.drop p)) := by
    cases hcs : s.chars.drop p with
    | nil =>
      rw [hcs] at hdrop
      exact byte_at_of_drop hdrop
    | cons c cs =>
      rw [hcs] at hdrop
      exact byte_at_of_drop hdrop
  exact Ensures.noting hread ⟨rfl, hlog.cons hp⟩

/-- A scan that stops at the terminator goes as far as its condition holds. -/
theorem scan_while_spec {cond : UInt8 → Nat → Bool} (hnul : ∀ n, cond 0 n = false) {fuel n : Nat}
    (hp : p + n ≤ s.chars.length) (hfuel : s.chars.length < p + n + fuel) (hlog : Inside s log) :
    Ensures (scan_while (s.memory behind) p cond fuel n) log
      fun m log' => m = n + span_while cond n (s.chars.drop (p + n)) ∧ Inside s log' := by
  induction fuel generalizing n log with
  | zero => omega
  | succ fuel ih =>
    rw [scan_while]
    apply Ensures.bind (char_at_spec behind hp hlog)
    rintro c log ⟨rfl, hlog⟩
    cases hcs : s.chars.drop (p + n) with
    | nil =>
      rw [deref, List.headD_nil, hnul]
      exact Ensures.pure ⟨rfl, hlog⟩
    | cons c cs =>
      rw [deref, List.headD_cons, span_while]
      apply Ensures.ite
      · intro hc
        have hlt := lt_length_of_drop hcs
        have hnext : s.chars.drop (p + (n + 1)) = cs := drop_succ_of_drop hcs
        rw [if_pos hc, ← hnext]
        obtain ⟨m, log', hrun, hm, hlog'⟩ := ih (n := n + 1) (by omega) (by omega) hlog
        exact ⟨m, log', hrun, by omega, hlog'⟩
      · intro hc
        rw [if_neg hc]
        exact Ensures.pure ⟨rfl, hlog⟩

theorem Text.length_memory : (s.memory behind).length = s.chars.length + 1 + behind.length := by
  rw [Text.memory, List.length_append, List.length_cons]
  omega

/-- A pointer that is moved over what a test accepts. -/
theorem skip_while_spec {q : UInt8 → Bool} (hq : q 0 = false) (hp : p ≤ s.chars.length) (hlog : Inside s log) :
    Ensures (do
        let n ← scan_while (s.memory behind) p (fun c _ => q c) ((s.memory behind).length + 1) 0
        pure (p + n)) log
      fun p' log' => p' = p + ((s.chars.drop p).takeWhile q).length ∧ p' ≤ s.chars.length ∧
        s.chars.drop p' = (s.chars.drop p).dropWhile q ∧ Inside s log' := by
  have hfuel : s.chars.length < p + 0 + ((s.memory behind).length + 1) := by
    rw [Text.length_memory behind]
    omega
  apply Ensures.bind (scan_while_spec behind (fun _ => hq) hp hfuel hlog)
  rintro n log ⟨hn, hlog⟩
  rw [Nat.add_zero, Nat.zero_add, span_while_eq_takeWhile] at hn
  have hle : n ≤ (s.chars.drop p).length := by
    rw [hn]
    exact (List.takeWhile_prefix q).length_le
  rw [List.length_drop] at hle
  have hdrop : (s.chars.drop p).drop n = (s.chars.drop p).dropWhile q := by
    have hleft : ((s.chars.drop p).takeWhile q ++ (s.chars.drop p).dropWhile q).drop
        ((s.chars.drop p).takeWhile q).length = (s.chars.drop p).dropWhile q := List.drop_left
    rwa [List.takeWhile_append_dropWhile, ← hn] at hleft
  rw [List.drop_drop] at hdrop
  exact Ensures.pure ⟨congrArg (p + ·) hn, by omega, hdrop, hlog⟩

theorem skip_spaces_spec (hp : p ≤ s.chars.length) (hlog : Inside s log) :
    Ensures (skip_spaces (s.memory behind) p) log
      fun p' log' => p' = p + ((s.chars.drop p).takeWhile isspace).length ∧ p' ≤ s.chars.length ∧
        s.chars.drop p' = (s.chars.drop p).dropWhile isspace ∧ Inside s log' := by
  have htest : (fun c : UInt8 => c != 0 && isspace c) = isspace := by
    funext c
    cases hc : isspace c with
    | false => exact Bool.and_false _
    | true => rw [ne_zero_of_isspace hc, Bool.and_self]
  have hskip := skip_while_spec behind (q := fun c => c != 0 && isspace c) rfl hp hlog
  rwa [htest] at hskip

theorem skip_word_spec (hp : p ≤ s.chars.length) (hlog : Inside s log) :
    Ensures (skip_word (s.memory behind) p) log
      fun p' log' => p' = p + ((s.chars.drop p).takeWhile is_word).length ∧ p' ≤ s.chars.length ∧
        s.chars.drop p' = (s.chars.drop p).dropWhile is_word ∧ Inside s log' :=
  skip_while_spec behind rfl hp hlog

/-- The characters of a token, and the copy of them. -/
theorem scan_token_spec (hp : p ≤ s.chars.length) (hlog : Inside s log) :
    Ensures (scan_token (s.memory behind) p) log
      fun n log' => n = (((s.chars.drop p).take 31).takeWhile is_word).length ∧ Inside s log' := by
  have hfuel : s.chars.length < p + 0 + ((s.memory behind).length + 1) := by
    rw [Text.length_memory behind]
    omega
  obtain ⟨n, log', hrun, hn, hlog'⟩ : Ensures (scan_token (s.memory behind) p) log fun n log' =>
      n = 0 + span_while (fun c n => is_word c && decide (n < 31)) 0 (s.chars.drop (p + 0)) ∧ Inside s log' :=
    scan_while_spec behind (fun _ => rfl) hp hfuel hlog
  refine ⟨n, log', hrun, ?_, hlog'⟩
  rw [hn, Nat.add_zero, Nat.zero_add]
  exact span_while_eq_take_takeWhile is_word 31 0 (s.chars.drop p)

theorem copy_token_spec {n : Nat} (hn : n ≤ 31) (hp : p + n ≤ s.chars.length) (hlog : Inside s log) :
    Ensures (copy_token (s.memory behind) p n) log
      fun token log' => token = (s.chars.drop p).take n ∧ Inside s log' := by
  rw [copy_token, if_neg (by omega)]
  have hroom : p + n ≤ (s.memory behind).length := by
    rw [Text.length_memory behind]
    omega
  have hcopy : ((s.memory behind).drop p).take n = (s.chars.drop p).take n := by
    rw [Text.drop_memory behind (by omega)]
    exact List.take_append_of_le_length (by rw [List.length_drop]; omega)
  apply Ensures.noting (a := (s.chars.drop p).take n)
  · rw [if_pos hroom, hcopy]
  · refine ⟨rfl, ?_⟩
    intro i hi
    obtain hi | hi := List.mem_append.mp hi
    · have hlt := (List.mem_range'_1.mp hi).2
      omega
    · exact hlog i hi

/-- A token of the scanned length fits, and is the front of the word. -/
theorem token_of_length {n : Nat} (hp : p ≤ s.chars.length)
    (hn : n = (((s.chars.drop p).take 31).takeWhile is_word).length) :
    n ≤ 31 ∧ p + n ≤ s.chars.length ∧
      (s.chars.drop p).take n = ((s.chars.drop p).take 31).takeWhile is_word := by
  have hstarts : ((s.chars.drop p).take 31).takeWhile is_word <+: (s.chars.drop p).take 31 :=
    List.takeWhile_prefix is_word
  have hcap := hstarts.length_le.trans (List.length_take_le 31 (s.chars.drop p))
  have hfits := (hstarts.trans (List.take_prefix 31 (s.chars.drop p))).length_le
  rw [List.length_drop] at hfits
  refine ⟨by omega, by omega, ?_⟩
  rw [hn]
  exact (List.prefix_iff_eq_take.mp (hstarts.trans (List.take_prefix 31 (s.chars.drop p)))).symm

/-- No token is left, or no room for one. -/
theorem lex_loop_stopped {max_tokens count : Nat} {text : List UInt8}
    (hstop : ¬(deref text ≠ 0 ∧ count < max_tokens)) : lex_loop (max_tokens - count) text = [] := by
  by_cases hfull : count < max_tokens
  · have hend : deref text = 0 := by
      by_contra hc
      exact hstop ⟨hc, hfull⟩
    have hroom : max_tokens - count = max_tokens - (count + 1) + 1 := by omega
    rw [hroom, lex_loop, if_pos hend]
  · have hroom : max_tokens - count = 0 := by omega
    rw [hroom, lex_loop]

/-- What a round takes from the text: white space, then the characters of a word
as far as they fit, then the rest of that word. -/
theorem lex_rounds_spec {max_tokens fuel count : Nat} {tokens : List (List UInt8)} (hp : p ≤ s.chars.length)
    (hfuel : s.chars.length < p + fuel) (hlog : Inside s log) :
    Ensures (lex_rounds (s.memory behind) max_tokens fuel p count tokens) log
      fun r log' => r.1 = count + (lex_loop (max_tokens - count) (s.chars.drop p)).length ∧
        r.2 = tokens ++ lex_loop (max_tokens - count) (s.chars.drop p) ∧ Inside s log' := by
  induction fuel generalizing p count tokens log with
  | zero => omega
  | succ fuel ih =>
    rw [lex_rounds]
    apply Ensures.bind (char_at_spec behind hp hlog)
    rintro c log ⟨rfl, hlog⟩
    apply Ensures.ite
    · rintro ⟨hc, hcount⟩
      have hroom : max_tokens - count = max_tokens - (count + 1) + 1 := by omega
      rw [hroom, lex_loop, if_neg hc]
      apply Ensures.bind (skip_spaces_spec behind hp hlog)
      rintro start log ⟨hstart, hle, hdrop, hlog⟩
      rw [← hdrop]
      apply Ensures.bind (char_at_spec behind hle hlog)
      rintro c log ⟨rfl, hlog⟩
      apply Ensures.ite
      · intro hend
        simp only [if_pos hend]
        exact Ensures.pure ⟨rfl, (List.append_nil tokens).symm, hlog⟩
      · intro hend
        simp only [if_neg hend]
        have hword : (s.chars.drop start).takeWhile is_word ≠ [] := by
          rw [hdrop] at hend ⊢
          exact takeWhile_dropWhile_isspace_ne_nil hend
        apply Ensures.bind (scan_token_spec behind hle hlog)
        rintro n log ⟨hn, hlog⟩
        obtain ⟨hcap, hfits, htoken⟩ := token_of_length hle hn
        apply Ensures.bind (copy_token_spec behind hcap hfits hlog)
        rintro token log ⟨rfl, hlog⟩
        rw [htoken]
        apply Ensures.bind (skip_word_spec behind hle hlog)
        rintro next log ⟨hnext, hnextle, hnextdrop, hlog⟩
        rw [← hnextdrop]
        have hpos := List.length_pos_of_ne_nil hword
        obtain ⟨r, log', hrun, hcount', htokens', hlog'⟩ := ih hnextle (by omega) hlog
        refine ⟨r, log', hrun, ?_, ?_, hlog'⟩
        · rw [hcount', List.length_cons]
          omega
        · rw [htokens', List.append_assoc, List.singleton_append]
    · intro hstop
      rw [lex_loop_stopped hstop]
      exact Ensures.pure ⟨rfl, (List.append_nil tokens).symm, hlog⟩

end scans

/-- The lexer of any terminated text returns the number of its words or the
number of tokens, whichever is less, and stores the first 31 characters of that
many words. It examines nothing behind the terminator. -/
theorem ipmb_rule_lex_scan_spec (s : Text) (behind : List UInt8) (max_tokens : Nat) :
    ∃ count tokens log, (ipmb_rule_lex_scan (s.memory behind) max_tokens).run [] = .ok ((count, tokens), log) ∧
      count = min max_tokens (runs isspace s.chars).length ∧
      tokens = ((runs isspace s.chars).take max_tokens).map (List.take 31) ∧
      tokens = ipmb_rule_lex (s.memory behind) max_tokens ∧
      ∀ i ∈ log, i ≤ s.chars.length := by
  have hfuel : s.chars.length < 0 + ((s.memory behind).length + 1) := by
    rw [Text.length_memory behind]
    omega
  have hempty : Inside s [] := by
    intro i hi
    cases hi
  obtain ⟨r, log, hrun, hcount, htokens, hlog⟩ : Ensures (ipmb_rule_lex_scan (s.memory behind) max_tokens) []
      fun r log => r.1 = 0 + (lex_loop (max_tokens - 0) (s.chars.drop 0)).length ∧
        r.2 = [] ++ lex_loop (max_tokens - 0) (s.chars.drop 0) ∧ Inside s log :=
    lex_rounds_spec behind (Nat.zero_le _) hfuel hempty
  have hwhole : s.chars.takeWhile (fun c => c != 0) = s.chars :=
    List.takeWhile_eq_self_iff.mpr fun c hc => bne_iff_ne.mpr (s.ne_zero c hc)
  have hwords : words_of s.chars = runs isspace s.chars := by
    rw [words_of, hwhole]
  rw [Nat.sub_zero, List.drop_zero, lex_loop_eq, hwords] at hcount htokens
  refine ⟨r.1, r.2, log, hrun, ?_, htokens, ?_, hlog⟩
  · rw [hcount, Nat.zero_add, List.length_map, List.length_take]
  · rw [ipmb_rule_lex_eq, Text.memory, words_of_append_nul s.ne_zero, hwords]
    exact htokens

/-- `ttl > 9` with blanks around it. -/
def spaced_rule : Text where
  chars := [0x20, 0x74, 0x74, 0x6c, 0x20, 0x3e, 0x20, 0x20, 0x39, 0x20]
  ne_zero := by simp

example : ipmb_rule_lex (spaced_rule.memory [0x78]) 2 = [[0x74, 0x74, 0x6c], [0x3e]] := by decide

end ipmb.rule_lexer
