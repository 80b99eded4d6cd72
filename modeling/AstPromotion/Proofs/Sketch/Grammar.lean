import AstPromotion.Proofs.Sketch.RoundTrip

/-! # What was read is written in the text

A text that can be read is a rendering of the sketch that is read from it: the
reader skips layout only, takes every lexeme as far as it goes, and so reads the
lexemes of the sketch one after another.
-/

namespace AstPromotion.Sketch

/-! ## What is skipped is layout -/

/-- What is left of a text without the layout at its head; behind a comment that is not ended
nothing is left. -/
inductive Skipped (rest : List Char) : List Char → Prop
  | ended {layout : List Char} (hlayout : Layout layout) : Skipped rest (layout ++ rest)
  | unended {layout : List Char} (hlayout : Trailing layout) (hrest : rest = []) :
      Skipped rest layout

variable {text rest : List Char}

theorem Skipped.blank (hskipped : Skipped rest text) {char : Char} (hblank : char ∈ blanks) :
    Skipped rest (char :: text) := by
  cases hskipped with
  | ended hlayout => exact .ended (.blank hblank hlayout)
  | unended hlayout hrest =>
      cases hlayout with
      | ended hlayout => exact .unended (.ended (.blank hblank hlayout)) hrest
      | unended hlayout htext => exact .unended (.unended (.blank hblank hlayout) htext) hrest

theorem Skipped.comment (hskipped : Skipped rest text) {comment : List Char}
    (hcomment : '\n' ∉ comment) : Skipped rest ('#' :: (comment ++ '\n' :: text)) := by
  cases hskipped with
  | @ended layout hlayout =>
      have hended : Skipped rest _ := .ended (.comment hcomment hlayout)
      rwa [List.cons_append, List.append_assoc, List.cons_append] at hended
  | unended hlayout hrest =>
      cases hlayout with
      | ended hlayout => exact .unended (.ended (.comment hcomment hlayout)) hrest
      | @unended layout more hlayout htext =>
          have hunended := Trailing.unended (Layout.comment hcomment hlayout) htext
          rw [List.cons_append, List.append_assoc, List.cons_append] at hunended
          exact .unended hunended hrest

/-- If nothing is left, all of the text was layout. -/
theorem Skipped.trailing (hskipped : Skipped [] text) : Trailing text := by
  cases hskipped with
  | ended hlayout =>
      rw [List.append_nil]
      exact .ended hlayout
  | unended hlayout _ => exact hlayout

/-- Inside a comment, the characters of the comment that were already passed count as well. -/
theorem skipped_drop (text : List Char) :
    Skipped (text.drop (layoutLength false text)) text ∧
      ∀ comment, '\n' ∉ comment →
        Skipped (text.drop (layoutLength true text)) ('#' :: (comment ++ text)) := by
  induction text with
  | nil =>
      refine ⟨.ended .nil, fun comment hcomment => ?_⟩
      rw [List.append_nil]
      exact .unended (.unended .nil hcomment) rfl
  | cons char text ih =>
      obtain ⟨houtside, hinside⟩ := ih
      constructor
      · by_cases hsign : char = '#'
        · subst hsign
          exact hinside [] List.not_mem_nil
        · by_cases hblank : char ∈ blanks
          · rw [layoutLength_of_blank hblank]
            exact houtside.blank hblank
          · have hplain : isPlain char = true := isPlain_iff.mpr ⟨hsign, hblank⟩
            rw [layoutLength_of_isPlain hplain]
            exact .ended .nil
      · intro comment hcomment
        by_cases hline : char = '\n'
        · subst hline
          exact houtside.comment hcomment
        · have hgoes : (char != '\n') = true := bne_iff_ne.mpr hline
          have hlonger : '\n' ∉ comment ++ [char] := by
            simp [hcomment, Ne.symm hline]
          have hskipped := hinside _ hlonger
          rw [List.append_assoc, List.singleton_append] at hskipped
          rw [layoutLength, hgoes]
          exact hskipped

theorem skipped_skipLayout (cursor : Cursor) : Skipped cursor.skipLayout.rest cursor.rest :=
  (skipped_drop cursor.rest).1

/-- A lexeme that is found behind layout, and what is written behind it. -/
theorem written_of_skipped {previous lexeme : String} {lexemes : List String} {cursor : Cursor}
    (hsolid : Solid lexeme) (hskip : cursor.skipLayout.rest = lexeme.toList ++ rest)
    (hapart : ∀ first ∈ cursor.rest.head?, Apart previous first)
    (hrest : Written lexeme lexemes rest) : Written previous (lexeme :: lexemes) cursor.rest := by
  obtain ⟨first, others, htext, -⟩ := hsolid
  have hskipped := skipped_skipLayout cursor
  rw [hskip] at hskipped
  generalize cursor.rest = text at hskipped hapart
  cases hskipped with
  | unended hlayout hnil =>
      rw [htext] at hnil
      cases hnil
  | @ended layout hlayout =>
      refine .next hlayout ?_ hrest
      rintro rfl
      refine (not_runTogether_iff htext).mpr (hapart first ?_)
      rw [List.nil_append, htext]
      rfl

/-! ## Lexemes are read as far as they go -/

/-- Nothing belongs to a lexeme that is neither a word nor a number. -/
theorem apart_of_sign {previous : String}
    (hsign : (startsWith isWordStart previous || startsWith Char.isDigit previous) = false)
    (first : Char) : Apart previous first := by
  rw [Bool.or_eq_false_iff] at hsign
  constructor
  · intro hword
    rw [hsign.1] at hword
    cases hword
  · intro hnumber
    rw [hsign.2] at hnumber
    cases hnumber

theorem apart_of_readString {cursor next : Cursor} {token : Token}
    (hread : readString cursor = .ok (token, next)) (first : Char) : Apart token.lexeme first := by
  rw [readString] at hread
  split at hread
  next => cases hread
  next =>
      obtain ⟨rfl, -⟩ := Prod.mk.inj (Except.ok.inj hread)
      have htext (text : String) : (Token.string text).lexeme.toList = '"' :: (text.toList ++ ['"']) := by
        simp [Token.lexeme]
      refine apart_of_sign ?_ first
      rw [startsWith_eq (htext _), startsWith_eq (htext _)]
      rfl

theorem apart_of_readMark {cursor next : Cursor} {token : Token}
    (hread : readMark cursor = .ok (token, next)) (first : Char) : Apart token.lexeme first := by
  obtain ⟨sign, rfl⟩ : ∃ sign, token = .mark sign := by
    rw [readMark] at hread
    split at hread
    next => cases hread
    next => cases hread
    next =>
        split at hread
        next sign _ => exact ⟨sign, (Prod.mk.inj (Except.ok.inj hread)).1.symm⟩
        next => cases hread
  have htext : (Token.mark sign).lexeme.toList = '\'' :: (sign.spelling.toList ++ ['\'']) := by
    simp [Token.lexeme]
  refine apart_of_sign ?_ first
  rw [startsWith_eq htext, startsWith_eq htext]
  rfl

theorem apart_of_readWord {cursor : Cursor} {start : Char} {others : List Char}
    (hrest : cursor.rest = start :: others) (hstart : isWordStart start = true) :
    ∀ first ∈ (readWord cursor).2.rest.head?, Apart (readWord cursor).1 first := by
  intro first hfirst
  obtain ⟨letter, _, htext, hletter, -⟩ := (found_of_readWord hrest hstart).proper
  refine ⟨fun _ => ?_, fun hnumber => ?_⟩
  · obtain ⟨more, hmore⟩ := List.head?_eq_some_iff.mp hfirst
    simp only [readWord, rest_advance, rest_expect, drop_length_takeWhile] at hmore
    exact not_of_dropWhile_eq_cons hmore
  · rw [startsWith_eq htext, isDigit_of_isWordStart hletter] at hnumber
    cases hnumber

theorem apart_of_readNumber {cursor : Cursor} {start : Char} {others : List Char}
    (hrest : cursor.rest = start :: others) (hstart : start.isDigit = true) :
    ∀ first ∈ (readNumber cursor).2.rest.head?, Apart (readNumber cursor).1 first := by
  intro first hfirst
  obtain ⟨digit, _, htext, hdigit⟩ := (found_of_readNumber hrest hstart).proper.exists_cons
  refine ⟨fun hword => ?_, fun _ => ?_⟩
  · rw [startsWith_eq htext] at hword
    rw [isDigit_of_isWordStart hword] at hdigit
    cases hdigit
  · obtain ⟨more, hmore⟩ := List.head?_eq_some_iff.mp hfirst
    rw [readNumber] at hmore
    simp only [rest_advance, rest_expect, drop_length_takeWhile] at hmore
    split at hmore
    next hpoint =>
        split at hmore
        next =>
            -- The point was not followed by a digit, so it was not read.
            simp only [hpoint] at hmore
            obtain ⟨rfl, -⟩ := List.cons.inj hmore
            rfl
        next =>
            simp only [rest_expect, rest_advance, drop_length_takeWhile, hpoint,
              List.drop_succ_cons] at hmore
            exact not_of_dropWhile_eq_cons hmore
    next =>
        simp only [rest_expect, rest_advance, drop_length_takeWhile] at hmore
        exact not_of_dropWhile_eq_cons hmore

/-- What follows a token that was read does not belong to it. -/
theorem apart_of_readToken {cursor next : Cursor} {token : Token}
    (hread : readToken cursor = .ok (token, next)) :
    ∀ first ∈ next.rest.head?, Apart token.lexeme first := by
  rw [readToken] at hread
  split at hread
  next => exact fun first _ => apart_of_readString hread first
  next => exact fun first _ => apart_of_readMark hread first
  next hrest =>
      split at hread
      next hdigit =>
          obtain ⟨rfl, rfl⟩ := Prod.mk.inj (Except.ok.inj hread)
          exact apart_of_readNumber hrest hdigit
      next =>
          split at hread
          next hstart =>
              obtain ⟨rfl, rfl⟩ := Prod.mk.inj (Except.ok.inj hread)
              exact apart_of_readWord hrest hstart
          next => cases hread
  next => cases hread

/-- A name that is read behind an opening parenthesis. -/
theorem written_of_readName {cursor next : Cursor} {name : String} {lexemes : List String}
    (hread : readName cursor = .ok (name, next))
    (hrest : (∀ first ∈ next.rest.head?, Apart name first) → Written name lexemes next.rest) :
    Written "(" (name :: lexemes) cursor.rest := by
  rw [readName] at hread
  split at hread
  next first others hskip =>
      split at hread
      next hstart =>
          have hread := Except.ok.inj hread
          obtain rfl := (congrArg Prod.fst hread : (readWord cursor.skipLayout).1 = name)
          obtain rfl := (congrArg Prod.snd hread : (readWord cursor.skipLayout).2 = next)
          have hfound := found_of_readWord hskip hstart
          refine written_of_skipped (solid_lexeme hfound.proper) hfound.text_eq ?_
            (hrest (apart_of_readWord hskip hstart))
          exact fun first _ => apart_of_sign rfl first
      next => cases hread
  next => cases hread

/-! ## Items and texts -/

/-- The items that were read are written one after another, up to the parenthesis that closes their
group. -/
theorem written_of_readItems {fuel : Nat} {cursor last : Cursor} {items : List Sketch}
    (hread : readItems fuel cursor = .ok (items, last)) {previous : String} {more : List String}
    (hapart : ∀ first ∈ cursor.rest.head?, Apart previous first)
    (hmore : Written ")" more last.rest) :
    Written previous (lexemesEach items ++ ")" :: more) cursor.rest := by
  induction fuel generalizing cursor last items previous more with
  | zero => cases hread
  | succ fuel ih =>
      cases itemsRead_of_readItems hread with
      | closed hrest =>
          rw [rest_advance, rest_expect, hrest] at hmore
          exact written_of_skipped (by decide) hrest hapart hmore
      | group hrest hname hinner hothers =>
          have hbehind : Written ")" _ _ := ih hothers (fun first _ => apart_of_sign rfl first) hmore
          have hopened := written_of_readName hname fun hinside => ih hinner hinside hbehind
          rw [rest_advance, rest_expect, hrest] at hopened
          rw [lexemesEach_group_append]
          exact written_of_skipped (by decide) hrest hapart hopened
      | token htoken hothers =>
          have hfound := found_of_readToken htoken
          exact written_of_skipped (solid_lexeme hfound.proper) hfound.text_eq hapart
            (ih hothers (apart_of_readToken htoken) hmore)

/-- A text that is read as a sketch is a rendering of it, and the sketch is a group. -/
theorem renders_of_parse {source : String} {sketch : Sketch} (hparse : parse source = .ok sketch) :
    (∃ kind items, sketch = group kind items) ∧ sketch.Renders source := by
  obtain ⟨kind, items, inside, behind, others, rfl, hskip, hname, hitems, hend⟩ :=
    exists_of_parse hparse
  refine ⟨⟨kind, items, rfl⟩, ?_⟩
  have hlast := skipped_skipLayout behind
  rw [hend] at hlast
  have hopened := written_of_readName hname fun hinside =>
    written_of_readItems hitems hinside (.done hlast.trailing)
  rw [rest_advance, hskip] at hopened
  rw [Renders, lexemes_group]
  refine written_of_skipped (by decide) hskip ?_ hopened
  exact fun first _ => apart_of_sign rfl first

/-- A group each of whose tokens can be written down. -/
structure Writable (sketch : Sketch) : Prop where
  isGroup : ∃ kind items, sketch = group kind items
  proper : ∀ token ∈ sketch.tokens, token.Proper

/-- A text is read as a sketch exactly if it is a rendering of a sketch that can be written. -/
theorem parse_eq_ok_iff {source : String} {sketch : Sketch} :
    parse source = .ok sketch ↔ sketch.Writable ∧ sketch.Renders source := by
  constructor
  · intro hparse
    obtain ⟨hgroup, hrenders⟩ := renders_of_parse hparse
    exact ⟨⟨hgroup, fun token htoken => (stand_of_parse hparse token htoken).1⟩, hrenders⟩
  · rintro ⟨⟨⟨kind, items, rfl⟩, hproper⟩, hrenders⟩
    exact parse_of_renders hproper hrenders

end AstPromotion.Sketch
