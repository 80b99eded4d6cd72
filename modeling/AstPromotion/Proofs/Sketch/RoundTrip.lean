import AstPromotion.Proofs.Sketch.Layout

/-! # Reading what was written

A sketch that is written out is read back, whatever the layout, as long as it is
a group and each of its tokens can be written down.
-/

namespace AstPromotion.Sketch

/-! ## Tokens -/

/-- A run of characters is read as a whole if what follows does not belong to it. -/
theorem takeWhile_eq {test : Char → Bool} {text rest : List Char}
    (htext : ∀ char ∈ text, test char = true) (hrest : ∀ first ∈ rest.head?, test first = false) :
    (text ++ rest).takeWhile test = text := by
  rw [List.takeWhile_append_of_pos htext]
  cases rest with
  | nil => rw [List.takeWhile_nil, List.append_nil]
  | cons first others =>
      rw [List.takeWhile_cons, if_neg (by simp [hrest first rfl]), List.append_nil]

theorem readNumber_of_isNumeral {cursor : Cursor} {text rest : List Char} (hnumeral : IsNumeral text)
    (hrest : cursor.rest = text ++ rest)
    (hends : ∀ first ∈ rest.head?, first.isDigit = false ∧ first ≠ '.') :
    (readNumber cursor).1 = String.ofList text ∧ (readNumber cursor).2.rest = rest := by
  have hdigits := fun first hfirst => (hends first hfirst).1
  rw [readNumber]
  simp only [rest_advance, rest_expect]
  cases hnumeral with
  | whole hsome hwhole =>
      rw [hrest, takeWhile_eq hwhole hdigits, List.drop_left]
      split
      next => exact absurd rfl (hends '.' rfl).2
      next => exact ⟨rfl, by simp [hrest]⟩
  | @pointed whole fraction hsome hwhole hmore hfraction =>
      have htake : cursor.rest.takeWhile Char.isDigit = whole := by
        rw [hrest, List.append_assoc]
        refine takeWhile_eq hwhole fun first heq => ?_
        obtain rfl := Option.some.inj heq
        rfl
      have hdrop : cursor.rest.drop whole.length = '.' :: (fraction ++ rest) := by
        rw [hrest, List.append_assoc, List.drop_left, List.cons_append]
      rw [htake, hdrop]
      simp only [takeWhile_eq hfraction hdigits]
      rw [if_neg (by simpa using hmore)]
      refine ⟨rfl, ?_⟩
      simp only [rest_advance, rest_expect, hdrop, List.drop_succ_cons, List.drop_left]

theorem readWord_of_isWord {cursor : Cursor} {text rest : List Char} (hword : IsWord text)
    (hrest : cursor.rest = text ++ rest) (hends : ∀ first ∈ rest.head?, isWordPart first = false) :
    (readWord cursor).1 = String.ofList text ∧ (readWord cursor).2.rest = rest := by
  have hpart : ∀ char ∈ text, isWordPart char = true := by
    obtain ⟨start, others, rfl, hstart, hothers⟩ := hword
    intro char hchar
    rcases List.mem_cons.mp hchar with rfl | hchar
    · exact isWordPart_of_isWordStart hstart
    · exact hothers char hchar
  have htake : cursor.rest.takeWhile isWordPart = text := by rw [hrest, takeWhile_eq hpart hends]
  have hdrop : cursor.rest.drop text.length = rest := by rw [hrest, List.drop_left]
  rw [readWord]
  simp only [htake, rest_advance, rest_expect, hdrop, and_self]

theorem readString_of_not_mem {cursor : Cursor} {text rest : List Char} (hquote : '"' ∉ text)
    (hrest : cursor.rest = text ++ '"' :: rest) :
    ∃ next, readString cursor = .ok (.string (String.ofList text), next) ∧ next.rest = rest := by
  have htake : cursor.rest.takeWhile (· != '"') = text := by
    rw [hrest]
    refine takeWhile_eq ?_ fun first heq => ?_
    · intro char hchar
      exact bne_iff_ne.mpr fun heq => hquote (heq ▸ hchar)
    · obtain rfl := Option.some.inj heq
      rfl
  have hdrop : cursor.rest.drop text.length = '"' :: rest := by rw [hrest, List.drop_left]
  rw [readString]
  simp only [htake, rest_advance, rest_expect, hdrop]
  refine ⟨_, rfl, ?_⟩
  rw [rest_advance, rest_expect, rest_advance, hdrop]
  rfl

/-- No mark is spelled with a quote, and each by itself. -/
theorem ofSpelling?_spelling (sign : Mark) :
    Mark.ofSpelling? sign.spelling = some sign ∧ sign.spelling.toList ≠ [] ∧
      '\'' ∉ sign.spelling.toList := by
  rcases sign with sign | sign
  · cases sign <;> decide
  · cases sign <;> decide

theorem readMark_of_spelling {cursor : Cursor} {sign : Mark} {rest : List Char}
    (hrest : cursor.rest = sign.spelling.toList ++ '\'' :: rest) :
    ∃ next, readMark cursor = .ok (.mark sign, next) ∧ next.rest = rest := by
  obtain ⟨hsign, hsome, hquote⟩ := ofSpelling?_spelling sign
  have htake : cursor.rest.takeWhile (· != '\'') = sign.spelling.toList := by
    rw [hrest]
    refine takeWhile_eq ?_ fun first heq => ?_
    · intro char hchar
      exact bne_iff_ne.mpr fun heq => hquote (heq ▸ hchar)
    · obtain rfl := Option.some.inj heq
      rfl
  have hdrop : cursor.rest.drop sign.spelling.toList.length = '\'' :: rest := by
    rw [hrest, List.drop_left]
  obtain ⟨first, others, hspelling⟩ := List.exists_cons_of_ne_nil hsome
  rw [readMark]
  simp only [htake, rest_advance, rest_expect, hdrop, String.ofList_toList, hsign]
  rw [hspelling]
  refine ⟨_, rfl, ?_⟩
  rw [rest_advance, rest_expect, rest_advance, ← hspelling, hdrop]
  rfl

/-- How the lexeme of a token that can be written down starts. -/
theorem exists_lexeme_eq_cons {token : Token} (hproper : token.Proper) :
    ∃ first rest, token.lexeme.toList = first :: rest ∧ isPlain first = true ∧ first ≠ '.' ∧
      first ≠ '(' ∧ first ≠ ')' := by
  have hletter {first : Char} (hfirst : isWordPart first = true) :
      isPlain first = true ∧ first ≠ '.' ∧ first ≠ '(' ∧ first ≠ ')' := by
    have hother (sign : Char) (hsign : isWordPart sign = false) : first ≠ sign := by
      rintro rfl
      exact absurd hfirst (Bool.eq_false_iff.mp hsign)
    refine ⟨?_, hother _ rfl, hother _ rfl, hother _ rfl⟩
    simp [isPlain, hother '#' rfl, hother ' ' rfl, hother '\t' rfl, hother '\r' rfl,
      hother '\n' rfl]
  cases token with
  | string text =>
      refine ⟨'"', text.toList ++ ['"'], ?_, rfl, by decide, by decide, by decide⟩
      simp [Token.lexeme]
  | number text =>
      obtain ⟨first, rest, htext, hfirst⟩ := hproper.exists_cons
      refine ⟨first, rest, htext, hletter ?_⟩
      rw [isWordPart, Char.isAlphanum, hfirst, Bool.or_true, Bool.true_or]
  | word text =>
      obtain ⟨first, rest, htext, hfirst, -⟩ := hproper
      exact ⟨first, rest, htext, hletter (isWordPart_of_isWordStart hfirst)⟩
  | mark sign =>
      refine ⟨'\'', sign.spelling.toList ++ ['\''], ?_, rfl, by decide, by decide, by decide⟩
      simp [Token.lexeme]

theorem solid_lexeme {token : Token} (hproper : token.Proper) : Solid token.lexeme := by
  obtain ⟨first, rest, htext, hplain, hpoint, -⟩ := exists_lexeme_eq_cons hproper
  exact ⟨first, rest, htext, hplain, hpoint⟩

/-- Items start, and their group ends, with something other than layout. -/
theorem solid_head {items : List Sketch} (hproper : ∀ token ∈ tokensEach items, token.Proper)
    (more : List String) : ∀ lexeme ∈ (lexemesEach items ++ ")" :: more).head?, Solid lexeme := by
  intro lexeme hlexeme
  match items with
  | [] =>
      obtain rfl := Option.some.inj hlexeme
      decide
  | leaf token :: others =>
      obtain rfl := Option.some.inj hlexeme
      exact solid_lexeme (hproper token List.mem_cons_self)
  | group kind inner :: others =>
      obtain rfl := Option.some.inj hlexeme
      decide

theorem isDigit_of_isWordStart {char : Char} (hstart : isWordStart char = true) :
    char.isDigit = false := by
  rw [isWordStart, Bool.or_eq_true, beq_iff_eq] at hstart
  rcases hstart with hstart | rfl
  · rw [Bool.eq_false_iff, ne_eq, Char.isDigit_iff_toNat]
    change (decide ('A'.toNat ≤ char.toNat ∧ char.toNat ≤ 'Z'.toNat) ||
      (decide ('a'.toNat ≤ char.toNat) && decide (char.toNat ≤ 'z'.toNat))) = true at hstart
    simp only [Bool.or_eq_true, Bool.and_eq_true, decide_eq_true_eq] at hstart
    simp at hstart ⊢
    omega
  · rfl

/-- Without a quote in front, a token is a number or a word. -/
theorem readToken_of_cons {cursor : Cursor} {first : Char} {others : List Char}
    (hrest : cursor.rest = first :: others) (hquote : first ≠ '"') (hmark : first ≠ '\'') :
    readToken cursor =
      if first.isDigit then .ok (.number (readNumber cursor).1, (readNumber cursor).2)
      else if isWordStart first then .ok (.word (readWord cursor).1, (readWord cursor).2)
      else .error cursor.furthest := by
  unfold readToken
  split
  next heq =>
      rw [hrest] at heq
      cases heq
      exact absurd rfl hquote
  next heq =>
      rw [hrest] at heq
      cases heq
      exact absurd rfl hmark
  next heq =>
      rw [hrest] at heq
      cases heq
      rfl
  next heq =>
      rw [hrest] at heq
      cases heq

/-- A token that can be written down is read back if what follows does not belong to it. -/
theorem readToken_of_proper {cursor : Cursor} {token : Token} {rest : List Char}
    (hproper : token.Proper) (hrest : cursor.rest = token.lexeme.toList ++ rest)
    (hends : Ends token.lexeme rest) :
    ∃ next, readToken cursor = .ok (token, next) ∧ next.rest = rest := by
  cases token with
  | string text =>
      have hquoted : cursor.rest = '"' :: (text.toList ++ '"' :: rest) := by
        rw [hrest]
        simp [Token.lexeme]
      have hinside : (cursor.advance 1).rest = text.toList ++ '"' :: rest := by
        rw [rest_advance, hquoted]
        rfl
      obtain ⟨next, hread, hnext⟩ := readString_of_not_mem hproper hinside
      rw [String.ofList_toList] at hread
      refine ⟨next, ?_, hnext⟩
      rw [readToken, hquoted]
      exact hread
  | number text =>
      obtain ⟨first, others, htext, hfirst⟩ := hproper.exists_cons
      have hnumber : startsWith Char.isDigit text = true := by
        rwa [startsWith_eq htext]
      obtain ⟨hread, hnext⟩ := readNumber_of_isNumeral hproper hrest
        fun first hfirst => ⟨(hends first hfirst).1.number hnumber, (hends first hfirst).2⟩
      rw [String.ofList_toList] at hread
      have hcons : cursor.rest = first :: (others ++ rest) := by
        rw [hrest, Token.lexeme, htext, List.cons_append]
      refine ⟨(readNumber cursor).2, ?_, hnext⟩
      rw [readToken_of_cons hcons (by rintro rfl; cases hfirst) (by rintro rfl; cases hfirst),
        if_pos hfirst, hread]
  | word text =>
      obtain ⟨first, others, htext, hfirst, -⟩ := id hproper
      have hword : startsWith isWordStart text = true := by
        rwa [startsWith_eq htext]
      obtain ⟨hread, hnext⟩ := readWord_of_isWord hproper hrest
        fun first hfirst => (hends first hfirst).1.word hword
      rw [String.ofList_toList] at hread
      have hcons : cursor.rest = first :: (others ++ rest) := by
        rw [hrest, Token.lexeme, htext, List.cons_append]
      refine ⟨(readWord cursor).2, ?_, hnext⟩
      rw [readToken_of_cons hcons (by rintro rfl; cases hfirst) (by rintro rfl; cases hfirst),
        isDigit_of_isWordStart hfirst, if_neg Bool.false_ne_true, if_pos hfirst, hread]
  | mark sign =>
      have hquoted : cursor.rest = '\'' :: (sign.spelling.toList ++ '\'' :: rest) := by
        rw [hrest]
        simp [Token.lexeme]
      have hinside : (cursor.advance 1).rest = sign.spelling.toList ++ '\'' :: rest := by
        rw [rest_advance, hquoted]
        rfl
      obtain ⟨next, hread, hnext⟩ := readMark_of_spelling hinside
      refine ⟨next, ?_, hnext⟩
      rw [readToken, hquoted]
      exact hread

/-! ## Groups -/

/-- The name of every group kind is a word, and read as that kind. -/
theorem isWord_name (kind : GroupKind) :
    IsWord (Kind.group kind).name.toList ∧ Kind.ofName? (Kind.group kind).name = some (.group kind) := by
  rcases kind with grouping | _ | _ | _ | _
  · cases grouping <;> exact ⟨by decide, by decide⟩
  all_goals exact ⟨by decide, by decide⟩

/-- The name of a group is read back from behind any layout. -/
theorem readName_of_written {kind : GroupKind} {lexemes : List String} {cursor : Cursor}
    (hwritten : Written "(" (kind.name :: lexemes) cursor.rest)
    (hsolid : ∀ lexeme ∈ lexemes.head?, Solid lexeme) :
    ∃ next, readName cursor = .ok (kind.name, next) ∧ Written kind.name lexemes next.rest := by
  have hname : IsWord kind.name.toList := (isWord_name kind).1
  obtain ⟨first, others, htext, hfirst, -⟩ := id hname
  have hproper : (Token.word kind.name).Proper := hname
  obtain ⟨rest, hskip, hrest⟩ := hwritten.exists_skipped (solid_lexeme hproper)
  have hword : startsWith isWordStart kind.name = true := by
    rwa [startsWith_eq htext]
  obtain ⟨hread, hnext⟩ := readWord_of_isWord hname hskip
    fun first hfirst => (hrest.ends hsolid first hfirst).1.word hword
  rw [String.ofList_toList] at hread
  refine ⟨(readWord cursor.skipLayout).2, ?_, hnext ▸ hrest⟩
  have hcons : cursor.skipLayout.rest = first :: (others ++ rest) := by
    rw [hskip, htext, List.cons_append]
  rw [readName, hcons]
  dsimp only
  rw [if_pos hfirst, ← hread]

theorem closeGroup_of_name (kind : GroupKind) (items : List Sketch) (cursor : Cursor) :
    closeGroup (Kind.group kind).name items cursor = .ok (group kind items, cursor) := by
  rw [closeGroup, (isWord_name kind).2]

theorem lexemes_group (kind : GroupKind) (items : List Sketch) :
    (group kind items).lexemes = "(" :: kind.name :: (lexemesEach items ++ [")"]) := by
  rw [lexemes]
  rfl

/-- The lexemes of a group that stands in front of others. -/
theorem lexemesEach_group_append (kind : GroupKind) (inner rest : List Sketch) (more : List String) :
    lexemesEach (group kind inner :: rest) ++ ")" :: more =
      "(" :: kind.name :: (lexemesEach inner ++ ")" :: (lexemesEach rest ++ ")" :: more)) := by
  rw [lexemesEach, lexemes_group, List.cons_append, List.cons_append, List.cons_append,
    List.cons_append, List.append_assoc, List.append_assoc, List.singleton_append]

/-- The items of a group are read back up to the parenthesis that closes it. -/
theorem readItems_of_written {items : List Sketch}
    (hproper : ∀ token ∈ tokensEach items, token.Proper) {fuel : Nat} {cursor : Cursor}
    (hfuel : cursor.rest.length < fuel) {previous : String} {more : List String}
    (hwritten : Written previous (lexemesEach items ++ ")" :: more) cursor.rest) :
    ∃ last, readItems fuel cursor = .ok (items, last) ∧ Written ")" more last.rest := by
  induction fuel generalizing items cursor previous more with
  | zero => exact absurd hfuel (Nat.not_lt_zero _)
  | succ fuel ih =>
      have hlayout := (rest_skipLayout_suffix cursor).length_le
      match items with
      | [] =>
          obtain ⟨rest, hskip, hrest⟩ := hwritten.exists_skipped (by decide)
          refine ⟨(cursor.skipLayout.expect itemStarts).advance 1, ?_, ?_⟩
          · rw [readItems]
            simp only [rest_expect, hskip]
            rfl
          · rw [rest_advance, rest_expect, hskip]
            exact hrest
      | leaf token :: others =>
          have htokens : tokensEach (leaf token :: others) = token :: tokensEach others := rfl
          rw [htokens, List.forall_mem_cons] at hproper
          obtain ⟨rest, hskip, hrest⟩ := hwritten.exists_skipped (solid_lexeme hproper.1)
          obtain ⟨first, after, hlexeme, -, -, hopening, hclosing⟩ := exists_lexeme_eq_cons hproper.1
          have htext : ((cursor.skipLayout.expect itemStarts).expect [.closeGroup]).rest =
              token.lexeme.toList ++ rest := hskip
          obtain ⟨next, hread, hnext⟩ := readToken_of_proper hproper.1 htext
            (hrest.ends (solid_head hproper.2 more))
          rw [hlexeme] at hskip
          have hshorter : next.rest.length < fuel := by
            rw [hskip, List.cons_append, List.length_cons, List.length_append] at hlayout
            rw [hnext]
            omega
          obtain ⟨last, hothers, hlast⟩ := ih hproper.2 hshorter (hnext ▸ hrest)
          refine ⟨last, ?_, hlast⟩
          rw [readItems]
          dsimp only
          split
          next heq =>
              rw [rest_expect, hskip] at heq
              exact absurd (List.cons.inj heq).1 hclosing
          next heq =>
              rw [rest_expect, hskip] at heq
              exact absurd (List.cons.inj heq).1 hopening
          next =>
              rw [hread]
              change (readItems fuel next >>= _) = _
              rw [hothers]
              rfl
      | group kind inner :: others =>
          have htokens : tokensEach (group kind inner :: others) =
              tokensEach inner ++ tokensEach others := rfl
          rw [htokens, List.forall_mem_append] at hproper
          rw [lexemesEach_group_append] at hwritten
          obtain ⟨rest, hskip, hrest⟩ := hwritten.exists_skipped (by decide)
          have hopened : ((cursor.skipLayout.expect itemStarts).advance 1).rest = rest := by
            rw [rest_advance, rest_expect, hskip]
            rfl
          obtain ⟨inside, hname, hinside⟩ := readName_of_written (hopened ▸ hrest)
            (solid_head hproper.1 _)
          have hshorter : inside.rest.length < fuel := by
            have hsuffix := (rest_readName_suffix hname).length_le
            rw [hopened] at hsuffix
            rw [hskip, List.length_append] at hlayout
            change 1 + rest.length ≤ _ at hlayout
            omega
          obtain ⟨behind, hinner, hbehind⟩ := ih hproper.1 hshorter hinside
          have hshorter' : behind.rest.length < fuel :=
            Nat.lt_of_le_of_lt (stand_of_readItems hinner).1.length_le hshorter
          obtain ⟨last, hothers, hlast⟩ := ih hproper.2 hshorter' hbehind
          refine ⟨last, ?_, hlast⟩
          rw [readItems]
          dsimp only
          split
          next heq =>
              rw [rest_expect, hskip] at heq
              cases heq
          next =>
              rw [hname]
              change (readItems fuel inside >>= _) = _
              rw [hinner]
              change (closeGroup (Kind.group kind).name inner behind >>= _) = _
              rw [closeGroup_of_name]
              change (readItems fuel behind >>= _) = _
              rw [hothers]
              rfl
          next hother =>
              rw [rest_expect, hskip] at hother
              exact absurd rfl (hother _)

/-- A group that is written out is read back, whatever the layout. -/
theorem parse_of_renders {kind : GroupKind} {items : List Sketch} {source : String}
    (hproper : ∀ token ∈ (group kind items).tokens, token.Proper)
    (hrenders : (group kind items).Renders source) :
    parse source = .ok (group kind items) := by
  let start : Cursor := { rest := source.toList }
  have hwritten : Written "" ("(" :: kind.name :: (lexemesEach items ++ [")"])) start.rest := by
    rwa [Renders, lexemes_group] at hrenders
  obtain ⟨rest, hskip, hrest⟩ := hwritten.exists_skipped (by decide)
  have hopened : (start.skipLayout.advance 1).rest = rest := by
    rw [rest_advance, hskip]
    rfl
  obtain ⟨inside, hname, hinside⟩ := readName_of_written (hopened ▸ hrest) (solid_head hproper [])
  have hfuel : inside.rest.length < source.toList.length + 1 := by
    have hsuffix := (rest_readName_suffix hname).trans
      ((List.drop_suffix _ _).trans (rest_skipLayout_suffix start))
    exact Nat.lt_succ_of_le hsuffix.length_le
  obtain ⟨behind, hinner, hbehind⟩ := readItems_of_written hproper hfuel hinside
  have hlast : behind.skipLayout.rest.isEmpty = true := by
    cases hbehind with
    | done hlayout =>
        rw [rest_skipLayout_of_trailing hlayout]
        rfl
  have hread : readAll source.toList = .ok (group kind items, behind.skipLayout) := by
    have hopening : ({ rest := source.toList } : Cursor).skipLayout.rest = '(' :: rest := hskip
    rw [readAll]
    dsimp only
    rw [hopening]
    change (readName _ >>= _) = _
    rw [hname]
    change (readItems _ inside >>= _) = _
    rw [hinner]
    change (closeGroup (Kind.group kind).name items behind >>= _) = _
    rw [closeGroup_of_name]
    change (if behind.skipLayout.rest.isEmpty then _ else _) = _
    rw [if_pos hlast]
    rfl
  rw [parse, hread]

/-- In particular, a group is read back from its lexemes with single spaces between them. -/
theorem parse_render {kind : GroupKind} {items : List Sketch}
    (hproper : ∀ token ∈ (group kind items).tokens, token.Proper) :
    parse (group kind items).render = .ok (group kind items) :=
  parse_of_renders hproper (renders_render _)

end AstPromotion.Sketch
