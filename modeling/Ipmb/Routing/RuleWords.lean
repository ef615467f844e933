import Ipmb.Routing.RuleLexer
import Ipmb.Support.Words
import Mathlib.Data.List.TakeWhile

open words

namespace ipmb.rule_lexer

/-- The words of a text, as far as it goes: what stands between white space. -/
def words_of (text : List UInt8) : List (List UInt8) := runs isspace (text.takeWhile fun c => c != 0)

theorem words_of_nul {text : List UInt8} (h : deref text = 0) : words_of text = [] := by
  cases text with
  | nil => simp [words_of]
  | cons c text =>
    have hc : c = 0 := h
    simp [words_of, hc]

/-- What stands behind the terminator does not matter. -/
theorem words_of_append_nul {text : List UInt8} (h : ∀ c ∈ text, c ≠ 0) (rest : List UInt8) :
    words_of (text ++ 0 :: rest) = words_of text := by
  have hkept : ∀ c ∈ text, (c != 0) = true := fun c hc => bne_iff_ne.mpr (h c hc)
  have hwhole : text.takeWhile (fun c => c != 0) = text := List.takeWhile_eq_self_iff.mpr hkept
  have hcut : (text ++ 0 :: rest).takeWhile (fun c => c != 0) = text := by
    rw [List.takeWhile_append_of_pos hkept, List.takeWhile_cons_of_neg (by decide), List.append_nil]
  rw [words_of, words_of, hcut, hwhole]

theorem ne_zero_of_isspace {c : UInt8} (h : isspace c = true) : (c != 0) = true := by
  rw [bne_iff_ne]
  rintro rfl
  cases h

theorem is_word_iff {c : UInt8} : is_word c = true ↔ c ≠ 0 ∧ isspace c = false := by
  simp [is_word]

/-- White space before the words does not matter. -/
theorem words_of_skip {gap : List UInt8} (hgap : ∀ c ∈ gap, isspace c = true) (text : List UInt8) :
    words_of (gap ++ text) = words_of text := by
  rw [words_of, List.takeWhile_append_of_pos fun c hc => ne_zero_of_isspace (hgap c hc), runs_append_seps hgap,
    words_of]

theorem words_of_dropWhile (text : List UInt8) : words_of (text.dropWhile isspace) = words_of text := by
  have hspaces : ∀ c ∈ text.takeWhile isspace, isspace c = true := fun c hc => List.mem_takeWhile_imp hc
  have hskip := words_of_skip hspaces (text.dropWhile isspace)
  rw [List.takeWhile_append_dropWhile] at hskip
  exact hskip.symm

/-- A word ends where the text does or at white space. -/
theorem words_of_append {w rest : List UInt8} (hw : w ≠ []) (hchars : ∀ c ∈ w, is_word c = true)
    (hrest : is_word (deref rest) = false) : words_of (w ++ rest) = w :: words_of rest := by
  rw [words_of, List.takeWhile_append_of_pos fun c hc => bne_iff_ne.mpr (is_word_iff.mp (hchars c hc)).1]
  refine runs_append_run hw (fun c hc => (is_word_iff.mp (hchars c hc)).2) ?_
  intro c tail htail
  cases rest with
  | nil => cases htail
  | cons c' rest =>
    by_cases hc' : c' = 0
    · simp [hc'] at htail
    · have hkept : (c' != 0) = true := bne_iff_ne.mpr hc'
      rw [List.takeWhile_cons, hkept] at htail
      obtain rfl : c' = c := (List.cons.inj htail).1
      have hstop : is_word c' = false := hrest
      by_contra hspace
      rw [is_word_iff.mpr ⟨hc', Bool.eq_false_iff.mpr hspace⟩] at hstop
      cases hstop

theorem deref_dropWhile_word (p : List UInt8) : is_word (deref (p.dropWhile is_word)) = false := by
  induction p with
  | nil => rfl
  | cons c p ih =>
    rw [List.dropWhile_cons]
    split
    · exact ih
    · rename_i hc
      exact Bool.eq_false_iff.mpr hc

/-- What stands behind white space starts a word, unless the text ends there. -/
theorem takeWhile_dropWhile_isspace_ne_nil {p : List UInt8} (h : deref (p.dropWhile isspace) ≠ 0) :
    (p.dropWhile isspace).takeWhile is_word ≠ [] := by
  cases hp : p.dropWhile isspace with
  | nil =>
    rw [hp] at h
    exact absurd rfl h
  | cons c tail =>
    rw [hp] at h
    have hspace : isspace c = false := by
      have hhead := List.head?_dropWhile_not isspace p
      rw [hp] at hhead
      simpa using hhead
    have hword : is_word c = true := is_word_iff.mpr ⟨h, hspace⟩
    rw [List.takeWhile_cons, if_pos hword]
    exact List.cons_ne_nil _ _

/-- The lexer stores the first words, each as far as it fits. -/
theorem lex_loop_eq (room : Nat) (p : List UInt8) :
    lex_loop room p = ((words_of p).take room).map (List.take 31) := by
  induction room generalizing p with
  | zero => rfl
  | succ room ih =>
    rw [lex_loop]
    by_cases hend : deref p = 0
    · rw [if_pos hend, words_of_nul hend]
      rfl
    · rw [if_neg hend, ← words_of_dropWhile p]
      by_cases hblank : deref (p.dropWhile isspace) = 0
      · simp only [if_pos hblank, words_of_nul hblank]
        rfl
      · simp only [if_neg hblank]
        rw [ih]
        have hword := takeWhile_dropWhile_isspace_ne_nil hblank
        have hsplit := words_of_append hword (fun c hc => List.mem_takeWhile_imp hc)
          (deref_dropWhile_word (p.dropWhile isspace))
        rw [List.takeWhile_append_dropWhile] at hsplit
        rw [hsplit, List.take_succ_cons, List.map_cons, List.take_takeWhile]

theorem ipmb_rule_lex_eq (text : List UInt8) (max_tokens : Nat) :
    ipmb_rule_lex text max_tokens = ((words_of text).take max_tokens).map (List.take 31) :=
  lex_loop_eq max_tokens text

end ipmb.rule_lexer
