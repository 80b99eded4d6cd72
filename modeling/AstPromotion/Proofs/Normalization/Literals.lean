import AstPromotion.Proofs.Normalization.Step
import AstPromotion.Proofs.Sketch.Tokens

/-! # What literals stand for

The text of every literal that a reader finds can be read as a value, and the
value is the one that the text stands for: nothing in it is trimmed and no quote
is taken off.
-/

namespace AstPromotion

/-- The value that the text of a literal stands for. -/
inductive Literal.Denotes : Literal → String → Value → Prop
  | identifier (word : String) : Denotes .identifier word (.name word)
  | string (text : String) : Denotes .string text (.text text)
  | boolean (value : Bool) : Denotes .boolean (toString value) (.boolean value)
  | numeric {text : String} {number : Binary64} (hnumber : Binary64.ofNumeral? text = some number) :
      Denotes .numeric text (.number number)

theorem isBlank_of_isDigit {char : Char} (hdigit : char.isDigit = true) :
    Text.isBlank char = false := by
  simp only [Char.isDigit, Bool.and_eq_true, decide_eq_true_eq, UInt32.le_iff_toNat_le,
    ge_iff_le] at hdigit
  have hcode : char.toNat = char.val.toNat := rfl
  simp only [Text.isBlank, Bool.or_eq_false_iff, Bool.and_eq_false_iff, beq_eq_false_iff_ne,
    decide_eq_false_iff_not]
  simp at hdigit
  omega

namespace IsNumeral

variable {text : List Char}

/-- A numeral ends with a digit. -/
theorem exists_concat (hnumeral : IsNumeral text) :
    ∃ rest last, text = rest ++ [last] ∧ last.isDigit = true := by
  cases hnumeral with
  | whole hsome hwhole =>
      refine ⟨text.dropLast, text.getLast hsome, (List.dropLast_concat_getLast hsome).symm, ?_⟩
      exact hwhole _ (List.getLast_mem hsome)
  | @pointed whole fraction hsome hwhole hmore hfraction =>
      refine ⟨whole ++ '.' :: fraction.dropLast, fraction.getLast hmore, ?_, ?_⟩
      · rw [List.append_assoc, List.cons_append, List.dropLast_concat_getLast hmore]
      · exact hfraction _ (List.getLast_mem hmore)

/-- There is nothing to trim. -/
theorem trim_eq (hnumeral : IsNumeral text) : Text.trim (String.ofList text) = String.ofList text := by
  obtain ⟨first, rest, hfirst, hdigit⟩ := hnumeral.exists_cons
  obtain ⟨others, last, hlast, hdigit'⟩ := hnumeral.exists_concat
  have hfront : text.dropWhile Text.isBlank = text := by
    rw [hfirst, List.dropWhile_cons_of_neg (by simp [isBlank_of_isDigit hdigit])]
  have hback : text.reverse.dropWhile Text.isBlank = text.reverse := by
    rw [hlast, List.reverse_append, List.reverse_singleton, List.singleton_append,
      List.dropWhile_cons_of_neg (by simp [isBlank_of_isDigit hdigit'])]
  rw [Text.trim, String.toList_ofList, hfront, hback, List.reverse_reverse]

theorem splitSign_eq (hnumeral : IsNumeral text) : Binary64.splitSign text = (false, text) := by
  obtain ⟨first, rest, rfl, hdigit⟩ := hnumeral.exists_cons
  unfold Binary64.splitSign
  split
  next heq =>
      cases heq
      cases hdigit
  next heq =>
      cases heq
      cases hdigit
  next => rfl

theorem exists_decimalParts (hnumeral : IsNumeral text) :
    ∃ parts, Binary64.decimalParts? text = some parts := by
  have htake (rest : List Char) {digits : List Char} (hdigits : ∀ digit ∈ digits, digit.isDigit = true)
      (hrest : rest.takeWhile Char.isDigit = []) :
      (digits ++ rest).takeWhile Char.isDigit = digits := by
    rw [List.takeWhile_append_of_pos hdigits, hrest, List.append_nil]
  have hempty {digits : List Char} (hdigits : ∀ digit ∈ digits, digit.isDigit = true) :
      digits.dropWhile Char.isDigit = [] := by
    have hdrop : (digits ++ []).dropWhile Char.isDigit = _ := List.dropWhile_append_of_pos hdigits
    rwa [List.append_nil] at hdrop
  cases hnumeral with
  | whole hsome hwhole =>
      have hdigits := htake [] hwhole rfl
      rw [List.append_nil] at hdigits
      rw [Binary64.decimalParts?, hdigits, hempty hwhole]
      simp [hsome, Binary64.exponentPart?]
  | @pointed whole fraction hsome hwhole hmore hfraction =>
      have hdigits := htake [] hfraction rfl
      rw [List.append_nil] at hdigits
      rw [Binary64.decimalParts?, htake _ hwhole rfl, List.dropWhile_append_of_pos hwhole]
      simp [hdigits, hempty hfraction, hsome, Binary64.exponentPart?]

/-- Every numeral is a number. -/
theorem exists_ofNumeral (hnumeral : IsNumeral text) :
    ∃ number, Binary64.ofNumeral? (String.ofList text) = some number := by
  obtain ⟨⟨digits, power⟩, hparts⟩ := hnumeral.exists_decimalParts
  refine ⟨Binary64.ofDecimal false digits power, ?_⟩
  rw [Binary64.ofNumeral?, String.toList_ofList, hnumeral.splitSign_eq]
  simp only [hparts]

end IsNumeral

namespace Normalization

/-- A text without quotes has none to take off. -/
theorem unquote_eq {text : String} (hquote : '"' ∉ text.toList) : unquote text = text := by
  unfold unquote
  split
  next rest htext =>
      rw [htext] at hquote
      exact absurd List.mem_cons_self hquote
  next => rfl

/-- The text of a literal that can be written down is read as the value it stands for. -/
theorem exists_readValue_of_proper {token : Token} (hproper : token.Proper) {literal : Literal}
    (hkind : token.kind = .literal literal) :
    ∃ value, readValue (.literal literal) token.raw = some value ∧
      literal.Denotes token.raw value := by
  cases token with
  | string text =>
      cases hkind
      refine ⟨.text text, ?_, .string text⟩
      rw [readValue, readWord, Token.raw, unquote_eq hproper]
  | number text =>
      cases hkind
      obtain ⟨number, hnumber⟩ := hproper.exists_ofNumeral
      have htrim := hproper.trim_eq
      rw [String.ofList_toList] at hnumber htrim
      refine ⟨.number number, ?_, .numeric hnumber⟩
      rw [readValue, readNumber, Token.raw, htrim, hnumber]
      rfl
  | word word =>
      rw [Token.kind, Token.wordKind] at hkind
      split at hkind
      next hboolean =>
          cases hkind
          rw [Bool.or_eq_true, beq_iff_eq, beq_iff_eq] at hboolean
          rcases hboolean with rfl | rfl
          · exact ⟨.boolean true, rfl, .boolean true⟩
          · exact ⟨.boolean false, rfl, .boolean false⟩
      next =>
          split at hkind
          next => cases hkind
          next =>
              cases hkind
              exact ⟨.name word, rfl, .identifier word⟩
  | mark sign => cases hkind

end Normalization

end AstPromotion
