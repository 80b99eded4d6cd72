import AstPromotion.Sketch.Printer
import AstPromotion.Sketch.Reader

/-! # What a reader finds

Every token of a sketch stands in the text that the sketch was read from, written
as its lexeme. A string holds no quote, a number is made of digits with at most
one point between them, and a word starts like one.
-/

namespace AstPromotion

/-- Digits, and perhaps a point with more digits behind it. -/
inductive IsNumeral : List Char → Prop
  | whole {whole : List Char} (hsome : whole ≠ []) (hwhole : ∀ digit ∈ whole, digit.isDigit = true) :
      IsNumeral whole
  | pointed {whole fraction : List Char} (hsome : whole ≠ [])
      (hwhole : ∀ digit ∈ whole, digit.isDigit = true) (hmore : fraction ≠ [])
      (hfraction : ∀ digit ∈ fraction, digit.isDigit = true) :
      IsNumeral (whole ++ '.' :: fraction)

/-- A numeral starts with a digit. -/
theorem IsNumeral.exists_cons {text : List Char} (hnumeral : IsNumeral text) :
    ∃ first rest, text = first :: rest ∧ first.isDigit = true := by
  cases hnumeral with
  | whole hsome hwhole =>
      obtain ⟨first, rest, rfl⟩ := List.exists_cons_of_ne_nil hsome
      exact ⟨first, rest, rfl, hwhole first List.mem_cons_self⟩
  | pointed hsome hwhole _ _ =>
      obtain ⟨first, rest, rfl⟩ := List.exists_cons_of_ne_nil hsome
      exact ⟨first, _, rfl, hwhole first List.mem_cons_self⟩

/-- A letter or an underscore, and then letters, underscores and digits. -/
def IsWord (text : List Char) : Prop :=
  ∃ start rest, text = start :: rest ∧ Sketch.isWordStart start = true ∧
    ∀ char ∈ rest, Sketch.isWordPart char = true

theorem isWord_cons {start : Char} {rest : List Char} :
    IsWord (start :: rest) ↔ (Sketch.isWordStart start && rest.all Sketch.isWordPart) = true := by
  rw [Bool.and_eq_true, List.all_eq_true]
  constructor
  · rintro ⟨_, _, ⟨⟩, hstart, hrest⟩
    exact ⟨hstart, hrest⟩
  · rintro ⟨hstart, hrest⟩
    exact ⟨start, rest, rfl, hstart, hrest⟩

instance : DecidablePred IsWord
  | [] => .isFalse fun ⟨_, _, heq, _⟩ => nomatch heq
  | _ :: _ => decidable_of_iff _ isWord_cons.symm

/-- Whether a token can be written down. -/
def Token.Proper : Token → Prop
  | string text => '"' ∉ text.toList
  | number text => IsNumeral text.toList
  | word text => IsWord text.toList
  | mark _ => True

namespace Sketch

mutual

/-- The tokens of a sketch from left to right. -/
def tokens : Sketch → List Token
  | leaf token => [token]
  | group _ items => tokensEach items

/-- The tokens of sketches in a row. -/
def tokensEach : List Sketch → List Token
  | [] => []
  | item :: rest => tokens item ++ tokensEach rest

end

theorem tokensEach_eq_flatMap (items : List Sketch) : tokensEach items = items.flatMap tokens := by
  induction items with
  | nil => rfl
  | cons item rest ih => rw [tokensEach, ih, List.flatMap_cons]

theorem isWordPart_of_isWordStart {char : Char} (hstart : isWordStart char = true) :
    isWordPart char = true := by
  rw [isWordStart, Bool.or_eq_true] at hstart
  rw [isWordPart, Char.isAlphanum, Bool.or_eq_true, Bool.or_eq_true]
  exact hstart.imp_left Or.inl

/-! ## Cursors -/

@[simp] theorem rest_advance (cursor : Cursor) (count : Nat) :
    (cursor.advance count).rest = cursor.rest.drop count :=
  rfl

@[simp] theorem rest_expect (cursor : Cursor) (expected : List Expectation) :
    (cursor.expect expected).rest = cursor.rest :=
  rfl

theorem rest_skipLayout_suffix (cursor : Cursor) : cursor.skipLayout.rest <:+ cursor.rest :=
  List.drop_suffix _ _

/-- What was read, and that the cursor only moved forward. -/
theorem exists_of_bind_eq_ok {α β : Type} {first : Reading α} {next : α → Reading β} {result : β}
    (hread : (first >>= next) = .ok result) : ∃ value, first = .ok value ∧ next value = .ok result := by
  cases first with
  | error frontier => cases hread
  | ok value => exact ⟨value, rfl, hread⟩

/-- What follows a run of characters. -/
theorem drop_length_takeWhile {α : Type} (test : α → Bool) (list : List α) :
    list.drop (list.takeWhile test).length = list.dropWhile test := by
  conv => lhs; arg 2; rw [← List.takeWhile_append_dropWhile (p := test) (l := list)]
  exact List.drop_left

theorem forall_mem_takeWhile {α : Type} {test : α → Bool} {list : List α} :
    ∀ item ∈ list.takeWhile test, test item = true := by
  intro item hitem
  exact List.all_eq_true.mp List.all_takeWhile item hitem

/-- Where a run of characters ends, the next one does not belong to it. -/
theorem not_of_dropWhile_eq_cons {α : Type} {test : α → Bool} {list rest : List α} {next : α}
    (hdrop : list.dropWhile test = next :: rest) : test next = false := by
  have hhead := List.head?_dropWhile_not test list
  rw [hdrop] at hhead
  exact hhead

/-! ## Single tokens -/

/-- A token at the head of a text, and what follows it there. -/
structure Found (text : List Char) (token : Token) (rest : List Char) : Prop where
  proper : token.Proper
  text_eq : text = token.lexeme.toList ++ rest

theorem found_of_readString {cursor next : Cursor} {token : Token}
    (hread : readString cursor = .ok (token, next)) : Found ('"' :: cursor.rest) token next.rest := by
  rw [readString] at hread
  simp only [rest_advance, rest_expect, drop_length_takeWhile] at hread
  split at hread
  next => cases hread
  next quote rest hrest =>
      obtain ⟨rfl, rfl⟩ := Prod.mk.inj (Except.ok.inj hread)
      obtain rfl : quote = '"' := by simpa using not_of_dropWhile_eq_cons hrest
      constructor
      · rw [Token.Proper, String.toList_ofList]
        intro hquote
        simpa using forall_mem_takeWhile '"' hquote
      · have htext := List.takeWhile_append_dropWhile (p := fun char => char != '"')
          (l := cursor.rest)
        rw [hrest] at htext
        simp only [rest_advance, rest_expect, drop_length_takeWhile, hrest, Token.lexeme,
          String.toList_append, String.toList_ofList, List.drop_succ_cons, List.drop_zero]
        conv => lhs; rw [← htext]
        simp

theorem found_of_readMark {cursor next : Cursor} {token : Token}
    (hread : readMark cursor = .ok (token, next)) : Found ('\'' :: cursor.rest) token next.rest := by
  rw [readMark] at hread
  simp only [rest_advance, rest_expect, drop_length_takeWhile] at hread
  split at hread
  next => cases hread
  next => cases hread
  next first others quote rest hspelling hrest =>
      split at hread
      next sign hsign =>
          obtain ⟨rfl, rfl⟩ := Prod.mk.inj (Except.ok.inj hread)
          obtain rfl : quote = '\'' := by simpa using not_of_dropWhile_eq_cons hrest
          refine ⟨trivial, ?_⟩
          have hwritten : sign.spelling = String.ofList (cursor.rest.takeWhile (· != '\'')) := by
            simpa [Mark.ofSpelling?, hspelling] using List.find?_some hsign
          have htext := List.takeWhile_append_dropWhile (p := fun char => char != '\'')
            (l := cursor.rest)
          rw [hrest] at htext
          simp only [rest_advance, rest_expect, drop_length_takeWhile, hrest, Token.lexeme,
            String.toList_append, hwritten, String.toList_ofList, List.drop_succ_cons,
            List.drop_zero]
          conv => lhs; rw [← htext]
          simp
      next => cases hread

theorem found_of_readNumber {cursor : Cursor} {first : Char} {others : List Char}
    (hrest : cursor.rest = first :: others) (hdigit : first.isDigit = true) :
    Found cursor.rest (.number (readNumber cursor).1) (readNumber cursor).2.rest := by
  have hsome : cursor.rest.takeWhile Char.isDigit ≠ [] := by
    rw [hrest, List.takeWhile_cons, if_pos hdigit]
    exact List.cons_ne_nil _ _
  have htext := List.takeWhile_append_dropWhile (p := Char.isDigit) (l := cursor.rest)
  rw [readNumber]
  simp only [rest_advance, rest_expect, drop_length_takeWhile]
  split
  next rest hpoint =>
      split
      next =>
          refine ⟨?_, ?_⟩
          · rw [Token.Proper, String.toList_ofList]
            exact .whole hsome forall_mem_takeWhile
          · simp only [Token.lexeme, String.toList_ofList, htext]
      next hmore =>
          refine ⟨?_, ?_⟩
          · rw [Token.Proper, String.toList_ofList]
            exact .pointed hsome forall_mem_takeWhile (by simpa using hmore) forall_mem_takeWhile
          · simp only [Token.lexeme, String.toList_ofList, rest_advance, rest_expect,
              drop_length_takeWhile, hpoint, List.drop_succ_cons, List.append_assoc,
              List.cons_append, List.takeWhile_append_dropWhile]
            rw [← hpoint, htext]
  next =>
      refine ⟨?_, ?_⟩
      · rw [Token.Proper, String.toList_ofList]
        exact .whole hsome forall_mem_takeWhile
      · simp only [Token.lexeme, String.toList_ofList, rest_advance, rest_expect,
          drop_length_takeWhile, htext]

theorem found_of_readWord {cursor : Cursor} {first : Char} {others : List Char}
    (hrest : cursor.rest = first :: others) (hstart : isWordStart first = true) :
    Found cursor.rest (.word (readWord cursor).1) (readWord cursor).2.rest := by
  refine ⟨?_, ?_⟩
  · rw [Token.Proper, readWord, String.toList_ofList, hrest, List.takeWhile_cons,
      if_pos (isWordPart_of_isWordStart hstart)]
    exact ⟨first, _, rfl, hstart, forall_mem_takeWhile⟩
  · simp only [readWord, Token.lexeme, String.toList_ofList, rest_advance, rest_expect,
      drop_length_takeWhile, List.takeWhile_append_dropWhile]

theorem found_of_readToken {cursor next : Cursor} {token : Token}
    (hread : readToken cursor = .ok (token, next)) : Found cursor.rest token next.rest := by
  rw [readToken] at hread
  split at hread
  next others hrest =>
      rw [hrest]
      have hfound := found_of_readString hread
      rwa [rest_advance, hrest] at hfound
  next others hrest =>
      rw [hrest]
      have hfound := found_of_readMark hread
      rwa [rest_advance, hrest] at hfound
  next first others _ _ hrest =>
      split at hread
      next hdigit =>
          obtain ⟨rfl, rfl⟩ := Prod.mk.inj (Except.ok.inj hread)
          exact found_of_readNumber hrest hdigit
      next =>
          split at hread
          next hstart =>
              obtain ⟨rfl, rfl⟩ := Prod.mk.inj (Except.ok.inj hread)
              exact found_of_readWord hrest hstart
          next => cases hread
  next => cases hread

/-! ## Whole sketches -/

/-- Every one of the tokens can be written down and stands in the text. -/
def Stand (text : List Char) (tokens : List Token) : Prop :=
  ∀ token ∈ tokens, token.Proper ∧ token.lexeme.toList <:+: text

theorem Stand.append {text : List Char} {first second : List Token} (hfirst : Stand text first)
    (hsecond : Stand text second) : Stand text (first ++ second) := by
  intro token htoken
  rcases List.mem_append.mp htoken with htoken | htoken
  · exact hfirst token htoken
  · exact hsecond token htoken

theorem Stand.of_suffix {text longer : List Char} {tokens : List Token} (hstand : Stand text tokens)
    (hsuffix : text <:+ longer) : Stand longer tokens := fun token htoken =>
  ⟨(hstand token htoken).1, (hstand token htoken).2.trans hsuffix.isInfix⟩

theorem Found.stand {text rest : List Char} {token : Token} (hfound : Found text token rest) :
    Stand text [token] := by
  intro other hother
  obtain rfl := List.mem_singleton.mp hother
  exact ⟨hfound.proper, hfound.text_eq ▸ (List.prefix_append _ _).isInfix⟩

theorem Found.suffix {text rest : List Char} {token : Token} (hfound : Found text token rest) :
    rest <:+ text :=
  ⟨_, hfound.text_eq.symm⟩

theorem rest_readName_suffix {cursor next : Cursor} {name : String}
    (hread : readName cursor = .ok (name, next)) : next.rest <:+ cursor.rest := by
  rw [readName] at hread
  split at hread
  next first others hrest =>
      split at hread
      next hstart =>
          obtain ⟨-, rfl⟩ := Prod.mk.inj (Except.ok.inj hread)
          exact (List.drop_suffix _ _).trans (rest_skipLayout_suffix cursor)
      next => cases hread
  next => cases hread

/-- A group is read as a group of the name that was read. -/
theorem exists_of_closeGroup {name : String} {items : List Sketch} {cursor next : Cursor}
    {built : Sketch} (hclose : closeGroup name items cursor = .ok (built, next)) :
    ∃ kind : GroupKind, kind.name = name ∧ built = group kind items ∧ next = cursor := by
  rw [closeGroup] at hclose
  split at hclose
  next kind hkind =>
      obtain ⟨rfl, rfl⟩ := Prod.mk.inj (Except.ok.inj hclose)
      exact ⟨kind, Kind.name_of_ofName? hkind, rfl, rfl⟩
  next => cases hclose
  next => cases hclose

/-- The items of a group as they were read: up to the parenthesis that closes it, with a group or a
token in front. -/
inductive ItemsRead (fuel : Nat) (cursor : Cursor) : List Sketch → Cursor → Prop
  | closed {others : List Char} (hrest : cursor.skipLayout.rest = ')' :: others) :
      ItemsRead fuel cursor [] ((cursor.skipLayout.expect itemStarts).advance 1)
  | group {kind : GroupKind} {inner rest : List Sketch} {inside behind last : Cursor}
      {others : List Char} (hrest : cursor.skipLayout.rest = '(' :: others)
      (hname : readName ((cursor.skipLayout.expect itemStarts).advance 1) = .ok (kind.name, inside))
      (hinner : readItems fuel inside = .ok (inner, behind))
      (hothers : readItems fuel behind = .ok (rest, last)) :
      ItemsRead fuel cursor (.group kind inner :: rest) last
  | token {token : Token} {rest : List Sketch} {next last : Cursor}
      (htoken : readToken ((cursor.skipLayout.expect itemStarts).expect [.closeGroup]) =
        .ok (token, next))
      (hothers : readItems fuel next = .ok (rest, last)) :
      ItemsRead fuel cursor (.leaf token :: rest) last

theorem itemsRead_of_readItems {fuel : Nat} {cursor last : Cursor} {items : List Sketch}
    (hread : readItems (fuel + 1) cursor = .ok (items, last)) : ItemsRead fuel cursor items last := by
  rw [readItems] at hread
  dsimp only at hread
  split at hread
  next others hrest =>
      obtain ⟨rfl, rfl⟩ := Prod.mk.inj (Except.ok.inj hread)
      exact .closed hrest
  next others hrest =>
      obtain ⟨⟨name, inside⟩, hname, hread⟩ := exists_of_bind_eq_ok hread
      obtain ⟨⟨inner, behind⟩, hinner, hread⟩ := exists_of_bind_eq_ok hread
      obtain ⟨⟨built, next⟩, hbuilt, hread⟩ := exists_of_bind_eq_ok hread
      obtain ⟨⟨rest, final⟩, hothers, hread⟩ := exists_of_bind_eq_ok hread
      obtain ⟨rfl, rfl⟩ := Prod.mk.inj (Except.ok.inj hread)
      obtain ⟨kind, rfl, rfl, rfl⟩ := exists_of_closeGroup hbuilt
      exact .group hrest hname hinner hothers
  next =>
      obtain ⟨⟨token, next⟩, htoken, hread⟩ := exists_of_bind_eq_ok hread
      obtain ⟨⟨rest, final⟩, hothers, hread⟩ := exists_of_bind_eq_ok hread
      obtain ⟨rfl, rfl⟩ := Prod.mk.inj (Except.ok.inj hread)
      exact .token htoken hothers

theorem stand_of_readItems {fuel : Nat} {cursor last : Cursor} {items : List Sketch}
    (hread : readItems fuel cursor = .ok (items, last)) :
    last.rest <:+ cursor.rest ∧ Stand cursor.rest (tokensEach items) := by
  induction fuel generalizing cursor last items with
  | zero => cases hread
  | succ fuel ih =>
      have hlayout := rest_skipLayout_suffix cursor
      cases itemsRead_of_readItems hread with
      | closed hrest =>
          exact ⟨(List.drop_suffix _ _).trans hlayout, fun _ htoken => nomatch htoken⟩
      | group hrest hname hinner hothers =>
          obtain ⟨hbehind, hstand⟩ := ih hinner
          obtain ⟨hlast, hstand'⟩ := ih hothers
          have hinside := (rest_readName_suffix hname).trans ((List.drop_suffix _ _).trans hlayout)
          refine ⟨hlast.trans (hbehind.trans hinside), ?_⟩
          rw [tokensEach, tokens]
          exact (hstand.of_suffix hinside).append (hstand'.of_suffix (hbehind.trans hinside))
      | token htoken hothers =>
          obtain ⟨hlast, hstand⟩ := ih hothers
          have hfound := found_of_readToken htoken
          refine ⟨hlast.trans (hfound.suffix.trans hlayout), ?_⟩
          rw [tokensEach, tokens]
          exact (hfound.stand.of_suffix hlayout).append
            (hstand.of_suffix (hfound.suffix.trans hlayout))

/-- A text that is read as a sketch is one group, with nothing but layout around it. -/
theorem exists_of_parse {source : String} {sketch : Sketch} (hparse : parse source = .ok sketch) :
    ∃ (kind : GroupKind) (items : List Sketch) (inside behind : Cursor) (others : List Char),
      sketch = group kind items ∧
        (Cursor.skipLayout { rest := source.toList }).rest = '(' :: others ∧
        readName ((Cursor.skipLayout { rest := source.toList }).advance 1) =
          .ok (kind.name, inside) ∧
        readItems (source.toList.length + 1) inside = .ok (items, behind) ∧
        behind.skipLayout.rest = [] := by
  rw [parse] at hparse
  split at hparse
  next read _ hread =>
      obtain rfl := Except.ok.inj hparse
      rw [readAll] at hread
      dsimp only at hread
      split at hread
      next others hrest =>
          obtain ⟨⟨name, inside⟩, hname, hread⟩ := exists_of_bind_eq_ok hread
          obtain ⟨⟨items, behind⟩, hitems, hread⟩ := exists_of_bind_eq_ok hread
          obtain ⟨⟨built, next⟩, hbuilt, hread⟩ := exists_of_bind_eq_ok hread
          obtain ⟨kind, rfl, rfl, rfl⟩ := exists_of_closeGroup hbuilt
          split at hread
          next hempty =>
              obtain rfl := (Prod.mk.inj (Except.ok.inj hread)).1
              exact ⟨kind, items, inside, next, others, rfl, hrest, hname, hitems,
                List.isEmpty_iff.mp hempty⟩
          next => cases hread
      next => cases hread
  next => cases hparse

/-- Every token of a sketch stands in the text it was read from. -/
theorem stand_of_parse {source : String} {sketch : Sketch} (hparse : parse source = .ok sketch) :
    Stand source.toList sketch.tokens := by
  obtain ⟨kind, items, inside, behind, others, rfl, -, hname, hitems, -⟩ := exists_of_parse hparse
  rw [tokens]
  exact (stand_of_readItems hitems).2.of_suffix
    ((rest_readName_suffix hname).trans ((List.drop_suffix _ _).trans (rest_skipLayout_suffix _)))

theorem proper_of_parse {source : String} {sketch : Sketch} (hparse : parse source = .ok sketch) :
    ∀ token ∈ sketch.tokens, token.Proper :=
  fun token htoken => (stand_of_parse hparse token htoken).1

end Sketch

end AstPromotion
