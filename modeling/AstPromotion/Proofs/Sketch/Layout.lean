import AstPromotion.Proofs.Sketch.Tokens

/-! # Layout between lexemes

A sketch may be written with any layout between its lexemes. Only where two of
them would be read as one does layout have to keep them apart, and at the end of
the text a comment need not be ended.
-/

namespace AstPromotion.Sketch

/-- The characters that are layout wherever they stand outside a comment. -/
def blanks : List Char :=
  [' ', '\t', '\r', '\n']

/-- Blanks, and comments up to the ends of their lines. -/
inductive Layout : List Char → Prop
  | nil : Layout []
  | blank {char : Char} {rest : List Char} (hblank : char ∈ blanks) (hrest : Layout rest) :
      Layout (char :: rest)
  | comment {text rest : List Char} (htext : '\n' ∉ text) (hrest : Layout rest) :
      Layout ('#' :: (text ++ '\n' :: rest))

/-- Layout at the end of a text, with or without a comment that the text ends in. -/
inductive Trailing : List Char → Prop
  | ended {layout : List Char} (hlayout : Layout layout) : Trailing layout
  | unended {layout text : List Char} (hlayout : Layout layout) (htext : '\n' ∉ text) :
      Trailing (layout ++ '#' :: text)

/-- Whether the first character of a lexeme passes a test. -/
def startsWith (test : Char → Bool) (lexeme : String) : Bool :=
  lexeme.toList.head?.any test

/-- Two lexemes that would be read as one if nothing stood between them: a word swallows words and
numbers, and a number swallows numbers. -/
def RunTogether (first second : String) : Prop :=
  startsWith isWordStart first = true ∧ startsWith isWordPart second = true ∨
    startsWith Char.isDigit first = true ∧ startsWith Char.isDigit second = true

instance (first second : String) : Decidable (RunTogether first second) :=
  inferInstanceAs (Decidable (_ ∨ _))

/-- A text that goes on, after a lexeme, with the given lexemes and layout between them. -/
inductive Written : (previous : String) → List String → List Char → Prop
  | done {previous : String} {layout : List Char} (hlayout : Trailing layout) :
      Written previous [] layout
  | next {previous lexeme : String} {lexemes : List String} {layout rest : List Char}
      (hlayout : Layout layout) (hapart : layout = [] → ¬ RunTogether previous lexeme)
      (hrest : Written lexeme lexemes rest) :
      Written previous (lexeme :: lexemes) (layout ++ (lexeme.toList ++ rest))

/-- Whether a text is the sketch, written out with some layout. -/
def Renders (sketch : Sketch) (text : String) : Prop :=
  Written "" sketch.lexemes text.toList

/-! ## Skipping layout -/

/-- Whether a character can stand at the start of something other than layout. -/
def isPlain (char : Char) : Bool :=
  !(char == '#' || char == ' ' || char == '\t' || char == '\r' || char == '\n')

theorem mem_blanks {char : Char} :
    char ∈ blanks ↔ (char == ' ' || char == '\t' || char == '\r' || char == '\n') = true := by
  simp [blanks, or_assoc]

theorem isPlain_iff {char : Char} : isPlain char = true ↔ char ≠ '#' ∧ char ∉ blanks := by
  simp [isPlain, blanks, and_assoc]

theorem layoutLength_of_isPlain {first : Char} (hplain : isPlain first = true) (rest : List Char) :
    layoutLength false (first :: rest) = 0 := by
  obtain ⟨hcomment, hblank⟩ := isPlain_iff.mp hplain
  rw [layoutLength, if_neg (by simpa using hcomment),
    if_neg fun hmem => hblank (mem_blanks.mpr hmem)]

theorem layoutLength_of_blank {char : Char} (hblank : char ∈ blanks) (rest : List Char) :
    layoutLength false (char :: rest) = layoutLength false rest + 1 := by
  have hcomment : ¬ (char == '#') = true := by
    rintro hsign
    obtain rfl := eq_of_beq hsign
    exact absurd hblank (by decide)
  rw [layoutLength, if_neg hcomment, if_pos (mem_blanks.mp hblank)]

/-- A comment goes on to the end of its line, or of the text. -/
theorem layoutLength_of_comment {text : List Char} (htext : '\n' ∉ text) (rest : List Char) :
    layoutLength true (text ++ rest) = text.length + layoutLength true rest := by
  induction text with
  | nil => rw [List.nil_append, List.length_nil, Nat.zero_add]
  | cons char text ih =>
      rw [List.mem_cons, not_or] at htext
      have hgoes : (char != '\n') = true := bne_iff_ne.mpr (Ne.symm htext.1)
      rw [List.cons_append, layoutLength, hgoes, ih htext.2, List.length_cons]
      omega

theorem Layout.layoutLength_append {layout : List Char} (hlayout : Layout layout)
    (rest : List Char) :
    layoutLength false (layout ++ rest) = layout.length + layoutLength false rest := by
  induction hlayout with
  | nil => rw [List.nil_append, List.length_nil, Nat.zero_add]
  | blank hblank _ ih =>
      rw [List.cons_append, layoutLength_of_blank hblank, ih, List.length_cons]
      omega
  | @comment text more htext _ ih =>
      rw [List.cons_append, layoutLength, if_pos (beq_self_eq_true _), List.append_assoc,
        layoutLength_of_comment htext, List.cons_append, layoutLength]
      simp only [bne_self_eq_false, ih, List.length_cons, List.length_append]
      omega

theorem Trailing.layoutLength_eq {layout : List Char} (hlayout : Trailing layout) :
    layoutLength false layout = layout.length := by
  cases hlayout with
  | ended hlayout =>
      have hlength := hlayout.layoutLength_append []
      rwa [List.append_nil, layoutLength, Nat.add_zero] at hlength
  | @unended layout text hlayout htext =>
      have hlength := layoutLength_of_comment htext []
      rw [List.append_nil, layoutLength, Nat.add_zero] at hlength
      rw [hlayout.layoutLength_append, layoutLength, if_pos (beq_self_eq_true _), hlength,
        List.length_append, List.length_cons]

theorem rest_skipLayout_of_trailing {cursor : Cursor} (hlayout : Trailing cursor.rest) :
    cursor.skipLayout.rest = [] := by
  rw [Cursor.skipLayout, rest_advance, hlayout.layoutLength_eq, List.drop_length]

/-! ## Lexemes -/

theorem startsWith_eq {lexeme : String} {first : Char} {others : List Char}
    (htext : lexeme.toList = first :: others) (test : Char → Bool) :
    startsWith test lexeme = test first := by
  rw [startsWith, htext, List.head?_cons, Option.any_some]

/-- A lexeme that starts with something other than layout or a point. -/
def Solid (lexeme : String) : Prop :=
  ∃ first rest, lexeme.toList = first :: rest ∧ isPlain first = true ∧ first ≠ '.'

instance : DecidablePred Solid := fun lexeme =>
  decidable_of_iff (startsWith (fun first => isPlain first && first != '.') lexeme = true) <| by
    rw [startsWith, Solid]
    cases lexeme.toList <;> simp

/-- Layout is skipped up to the next lexeme. -/
theorem Written.exists_skipped {previous lexeme : String} {lexemes : List String} {cursor : Cursor}
    (hwritten : Written previous (lexeme :: lexemes) cursor.rest) (hsolid : Solid lexeme) :
    ∃ rest, cursor.skipLayout.rest = lexeme.toList ++ rest ∧ Written lexeme lexemes rest := by
  obtain ⟨first, others, htext, hplain, -⟩ := hsolid
  rw [Cursor.skipLayout, rest_advance]
  generalize cursor.rest = text at hwritten
  cases hwritten with
  | @next _ _ _ layout rest hlayout _ hrest =>
      refine ⟨rest, ?_, hrest⟩
      have hlength : layoutLength false (layout ++ (lexeme.toList ++ rest)) = layout.length := by
        rw [hlayout.layoutLength_append, htext, List.cons_append, layoutLength_of_isPlain hplain,
          Nat.add_zero]
      rw [hlength, List.drop_left]

/-- A character that does not belong to the lexeme before it. -/
structure Apart (previous : String) (first : Char) : Prop where
  word : startsWith isWordStart previous = true → isWordPart first = false
  number : startsWith Char.isDigit previous = true → first.isDigit = false

theorem not_runTogether_iff {previous lexeme : String} {first : Char} {others : List Char}
    (htext : lexeme.toList = first :: others) :
    ¬ RunTogether previous lexeme ↔ Apart previous first := by
  rw [RunTogether, startsWith_eq htext, startsWith_eq htext, not_or, not_and, not_and,
    Bool.not_eq_true, Bool.not_eq_true]
  exact ⟨fun ⟨hword, hnumber⟩ => ⟨hword, hnumber⟩, fun ⟨hword, hnumber⟩ => ⟨hword, hnumber⟩⟩

/-- A text that does not go on with anything that the lexeme before it could take. -/
def Ends (previous : String) (rest : List Char) : Prop :=
  ∀ first ∈ rest.head?, Apart previous first ∧ first ≠ '.'

theorem ends_of_not_isPlain {previous : String} {rest : List Char}
    (hrest : ∀ first ∈ rest.head?, isPlain first = false) : Ends previous rest := by
  intro first hfirst
  have hseparate : isWordPart first = false ∧ first.isDigit = false ∧ first ≠ '.' := by
    have hlayout := hrest first hfirst
    simp only [isPlain, Bool.not_eq_false', Bool.or_eq_true, beq_iff_eq] at hlayout
    rcases hlayout with (((rfl | rfl) | rfl) | rfl) | rfl <;> decide
  exact ⟨⟨fun _ => hseparate.1, fun _ => hseparate.2.1⟩, hseparate.2.2⟩

theorem Layout.not_isPlain {layout : List Char} (hlayout : Layout layout) :
    ∀ first ∈ layout.head?, isPlain first = false := by
  cases hlayout with
  | nil => exact fun _ hfirst => nomatch hfirst
  | blank hblank _ =>
      intro first hfirst
      obtain rfl := Option.some.inj hfirst
      exact Bool.eq_false_iff.mpr fun hplain => (isPlain_iff.mp hplain).2 hblank
  | comment _ _ =>
      intro first hfirst
      obtain rfl := Option.some.inj hfirst
      rfl

theorem Trailing.not_isPlain {layout : List Char} (hlayout : Trailing layout) :
    ∀ first ∈ layout.head?, isPlain first = false := by
  cases hlayout with
  | ended hlayout => exact hlayout.not_isPlain
  | @unended layout text hlayout htext =>
      cases layout with
      | nil =>
          intro first hfirst
          obtain rfl := Option.some.inj hfirst
          rfl
      | cons char rest => exact hlayout.not_isPlain

/-- What is written behind a lexeme does not belong to it. -/
theorem Written.ends {previous : String} {lexemes : List String} {text : List Char}
    (hwritten : Written previous lexemes text) (hsolid : ∀ lexeme ∈ lexemes.head?, Solid lexeme) :
    Ends previous text := by
  cases hwritten with
  | done hlayout => exact ends_of_not_isPlain hlayout.not_isPlain
  | @next _ lexeme _ layout rest hlayout hapart hrest =>
      cases layout with
      | cons char more => exact ends_of_not_isPlain hlayout.not_isPlain
      | nil =>
          -- Nothing stands between the two, so they may not run together.
          obtain ⟨first, others, htext, -, hpoint⟩ := hsolid lexeme rfl
          intro _ hfirst
          rw [List.nil_append, htext] at hfirst
          obtain rfl := Option.some.inj hfirst
          exact ⟨(not_runTogether_iff htext).mp (hapart rfl), hpoint⟩

/-! ## Single spaces -/

/-- Lexemes with a space before each of them. -/
def spaced (lexemes : List String) : List Char :=
  lexemes.flatMap fun lexeme => ' ' :: lexeme.toList

theorem toList_intercalate (lexeme : String) (lexemes : List String) :
    (String.intercalate " " (lexeme :: lexemes)).toList = lexeme.toList ++ spaced lexemes := by
  induction lexemes generalizing lexeme with
  | nil => simp [spaced]
  | cons next rest ih =>
      rw [String.intercalate_cons_cons, String.toList_append, String.toList_append, ih,
        List.append_assoc]
      rfl

theorem written_spaced (previous : String) (lexemes : List String) :
    Written previous lexemes (spaced lexemes) := by
  induction lexemes generalizing previous with
  | nil => exact .done (.ended .nil)
  | cons lexeme rest ih =>
      have hspace : Layout [' '] := .blank (by decide) .nil
      exact .next hspace (fun hnil => nomatch hnil) (ih lexeme)

/-- Single spaces are layout enough. -/
theorem renders_render (sketch : Sketch) : sketch.Renders sketch.render := by
  rw [Renders, render]
  cases sketch.lexemes with
  | nil => exact .done (.ended .nil)
  | cons lexeme rest =>
      rw [toList_intercalate]
      refine .next Layout.nil (fun _ htogether => ?_) (written_spaced lexeme rest)
      rcases htogether with ⟨hstart, -⟩ | ⟨hstart, -⟩ <;> cases hstart

end AstPromotion.Sketch
