import AstPromotion.Compilation
import AstPromotion.Proofs.Planting
import AstPromotion.Proofs.Sketch.Layout
import AstPromotion.Sketch.Choice

/-! # Choices leave nothing behind

No two alternatives start alike, so the first character settles every choice. A
group that fails after its items have been allocated makes everything around it
fail, so when a whole text is read its arena holds the planted sketch and no more.
-/

namespace AstPromotion.Sketch.Choice

/-! ## Words and tokens -/

/-- What was read and the text behind it, if reading went well. -/
def behind {α : Type} (reading : Reading (α × Cursor)) : Option (α × List Char) :=
  reading.toOption.map fun (value, next) => (value, next.rest)

theorem skipLayout_rest (cursor : Cursor) : skipLayout cursor.rest = cursor.skipLayout.rest :=
  rfl

theorem layoutLength_drop (text : List Char) (inComment : Bool) :
    layoutLength false (text.drop (layoutLength inComment text)) = 0 := by
  induction text generalizing inComment with
  | nil => cases inComment <;> rfl
  | cons char text ih =>
      cases inComment with
      | true =>
          rw [layoutLength, List.drop_succ_cons]
          exact ih _
      | false =>
          rw [layoutLength]
          split
          next =>
              rw [List.drop_succ_cons]
              exact ih true
          next hsign =>
              split
              next =>
                  rw [List.drop_succ_cons]
                  exact ih false
              next hblank =>
                  rw [List.drop_zero, layoutLength, if_neg hsign, if_neg hblank]

/-- Nothing more is skipped where layout has been skipped. -/
theorem skipLayout_skipLayout (text : List Char) :
    skipLayout (skipLayout text) = skipLayout text := by
  rw [skipLayout, skipLayout, layoutLength_drop, List.drop_zero]

variable {cursor : Cursor} {first : Char} {inside : List Char}

theorem string?_eq (hrest : cursor.rest = '"' :: inside) :
    string? cursor.rest = behind (readString (cursor.advance 1)) := by
  rw [hrest, string?, readString]
  simp only [rest_advance, rest_expect, drop_length_takeWhile, hrest, List.drop_succ_cons,
    List.drop_zero]
  cases hstop : inside.dropWhile (· != '"') with
  | nil => rfl
  | cons quote rest =>
      simp only [behind, Except.toOption, Option.map_some, rest_advance, rest_expect, hrest,
        List.drop_succ_cons, List.drop_zero, drop_length_takeWhile, hstop]

theorem mark?_eq (hrest : cursor.rest = '\'' :: inside) :
    mark? cursor.rest = behind (readMark (cursor.advance 1)) := by
  rw [hrest, mark?, readMark]
  simp only [rest_advance, rest_expect, drop_length_takeWhile, hrest, List.drop_succ_cons,
    List.drop_zero]
  cases hspelling : inside.takeWhile (· != '\'') with
  | nil => rfl
  | cons char others =>
      cases hstop : inside.dropWhile (· != '\'') with
      | nil =>
          cases Mark.ofSpelling? (String.ofList (char :: others)) <;> rfl
      | cons quote rest =>
          cases hsign : Mark.ofSpelling? (String.ofList (char :: others)) with
          | none => rfl
          | some sign =>
              have hdrop := drop_length_takeWhile (· != '\'') inside
              rw [hspelling, hstop] at hdrop
              simp only [behind, Except.toOption, Option.map_some, rest_advance, rest_expect, hrest,
                List.drop_succ_cons, List.drop_zero, hdrop]

theorem number?_eq (hrest : cursor.rest = first :: inside) (hdigit : first.isDigit = true) :
    number? cursor.rest = some (.number (readNumber cursor).1, (readNumber cursor).2.rest) := by
  have hsome : (cursor.rest.takeWhile Char.isDigit).isEmpty = false := by
    rw [hrest, List.takeWhile_cons, if_pos hdigit]
    rfl
  rw [number?, readNumber]
  simp only [rest_advance, rest_expect, drop_length_takeWhile, hsome, Bool.false_eq_true, if_false]
  split
  next rest hpoint =>
      simp only [hpoint]
      cases (rest.takeWhile Char.isDigit).isEmpty with
      | true => rfl
      | false =>
          simp only [Bool.false_eq_true, if_false, rest_advance, rest_expect, hpoint,
            drop_length_takeWhile, List.drop_succ_cons]
  next => simp only [rest_advance, rest_expect, drop_length_takeWhile]

theorem word?_eq (hrest : cursor.rest = first :: inside) (hstart : isWordStart first = true) :
    word? cursor.rest = some ((readWord cursor).1, (readWord cursor).2.rest) := by
  have hany : cursor.rest.head?.any isWordStart = true := by rwa [hrest]
  rw [word?, if_pos hany, readWord]
  simp only [rest_advance, rest_expect, drop_length_takeWhile]

theorem word?_of_not_isWordStart (hrest : cursor.rest = first :: inside)
    (hstart : isWordStart first = false) : word? cursor.rest = none := by
  have hany : cursor.rest.head?.any isWordStart = false := by rwa [hrest]
  rw [word?, if_neg (Bool.eq_false_iff.mp hany)]

/-- A name is read behind layout. -/
theorem word?_skipLayout (cursor : Cursor) :
    word? (skipLayout cursor.rest) = behind (readName cursor) := by
  rw [skipLayout_rest, readName]
  split
  next first rest hrest =>
      split
      next hstart => exact word?_eq hrest hstart
      next hstart => exact word?_of_not_isWordStart hrest (Bool.eq_false_iff.mpr hstart)
  next hrest =>
      rw [hrest]
      rfl

theorem string?_of_ne (hrest : cursor.rest = first :: inside) (hquote : first ≠ '"') :
    string? cursor.rest = none := by
  rw [hrest, string?]
  exact fun _ hcons => hquote (List.cons.inj hcons).1

theorem mark?_of_ne (hrest : cursor.rest = first :: inside) (hquote : first ≠ '\'') :
    mark? cursor.rest = none := by
  rw [hrest, mark?]
  exact fun _ hcons => hquote (List.cons.inj hcons).1

theorem number?_of_not_isDigit (hrest : cursor.rest = first :: inside)
    (hdigit : first.isDigit = false) : number? cursor.rest = none := by
  have hnone : (cursor.rest.takeWhile Char.isDigit).isEmpty = true := by
    rw [hrest, List.takeWhile_cons, hdigit]
    rfl
  rw [number?]
  exact if_pos hnone

/-- The first character settles which token can be read. -/
theorem token?_eq (cursor : Cursor) : token? cursor.rest = behind (readToken cursor) := by
  rw [token?, readToken]
  split
  next inside hrest =>
      rw [number?_of_not_isDigit hrest rfl, mark?_of_ne hrest (by decide),
        word?_of_not_isWordStart hrest rfl, string?_eq hrest]
      simp only [Option.map_none, Option.or_none]
  next inside hrest =>
      rw [string?_of_ne hrest (by decide), number?_of_not_isDigit hrest rfl,
        word?_of_not_isWordStart hrest rfl, mark?_eq hrest]
      simp only [Option.map_none, Option.none_or, Option.or_none]
  next first inside hquote hapostrophe hrest =>
      rw [string?_of_ne hrest hquote, mark?_of_ne hrest hapostrophe]
      simp only [Option.none_or]
      split
      next hdigit =>
          rw [number?_eq hrest hdigit, Option.some_or]
          rfl
      next hdigit =>
          rw [number?_of_not_isDigit hrest (Bool.eq_false_iff.mpr hdigit), Option.none_or]
          split
          next hstart =>
              rw [word?_eq hrest hstart]
              rfl
          next hstart =>
              rw [word?_of_not_isWordStart hrest (Bool.eq_false_iff.mpr hstart)]
              rfl
  next hrest =>
      rw [hrest]
      rfl

/-! ## Groups and items -/

variable {file : String} {fuel : Nat} {arena : Arena} {text : List Char}

/-- The rest of a group whose opening parenthesis was read. -/
def readGroup (fuel : Nat) (cursor : Cursor) : Reading (Sketch × Cursor) := do
  let (name, inside) ← readName cursor
  let (items, behind) ← readItems fuel inside
  closeGroup name items behind

/-- What was read is planted, or nothing could be read. -/
def Plants (file : String) (arena : Arena) (reading : Reading (Sketch × Cursor))
    (result : Option (Id × List Char) × Arena) : Prop :=
  match reading with
  | .ok (sketch, next) =>
    result = (some ((sketch.plant file arena).1, next.rest), (sketch.plant file arena).2)
  | .error _ => result.1 = none

/-- The items up to a parenthesis are planted, or no parenthesis closes the items there are. -/
def PlantsEach (file : String) (arena : Arena) (reading : Reading (List Sketch × Cursor))
    (result : Option (List Id × List Char) × Arena) : Prop :=
  match reading with
  | .ok (sketches, last) =>
    ∃ stop, skipLayout stop = ')' :: last.rest ∧
      result = (some ((plantEach file sketches arena).1, stop), (plantEach file sketches arena).2)
  | .error _ => ∀ read ∈ result.1, ∀ rest, skipLayout read.2 ≠ ')' :: rest

/-- Both readers find the same items everywhere, if they may take `fuel` rounds. -/
def Agree (file : String) (fuel : Nat) (arena : Arena) : Prop :=
  ∀ cursor : Cursor,
    PlantsEach file arena (readItems fuel cursor) (items file fuel (skipLayout cursor.rest) arena)

theorem close_of_unclosed {name : String} {result : Option (List Id × List Char) × Arena}
    (hopen : ∀ read ∈ result.1, ∀ rest, skipLayout read.2 ≠ ')' :: rest) :
    (close file name result).1 = none := by
  obtain ⟨read, after⟩ := result
  cases read with
  | none => rfl
  | some read =>
      rw [close]
      split
      next rest kind hclosed _ => exact absurd hclosed (hopen read rfl rest)
      next => rfl

theorem plants_close {name : String} {sketches : List Sketch} {last : Cursor} {stop : List Char}
    (hstop : skipLayout stop = ')' :: last.rest) :
    Plants file arena (closeGroup name sketches last) (node (close file name
      (some ((plantEach file sketches arena).1, stop), (plantEach file sketches arena).2))) := by
  rw [close, hstop, closeGroup]
  cases Kind.ofName? name with
  | none => exact rfl
  | some kind =>
      cases kind with
      | group kind =>
          rw [Plants, plant]
          rfl
      | _ => exact rfl

theorem node_of_none {result : Option (Form Id × List Char) × Arena} (hnone : result.1 = none) :
    node result = (none, result.2) := by
  obtain ⟨read, after⟩ := result
  obtain rfl : read = none := hnone
  rfl

/-- A group whose items were allocated in vain is none. -/
theorem plants_group (hitems : Agree file fuel arena) (cursor : Cursor) :
    Plants file arena (readGroup fuel cursor)
      (node (group file (items file fuel) ('(' :: cursor.rest) arena)) := by
  rw [group, word?_skipLayout, readGroup]
  cases readName cursor with
  | error frontier => exact rfl
  | ok named =>
      obtain ⟨name, inside⟩ := named
      have hinside := hitems inside
      change Plants file arena (readItems fuel inside >>= fun read => closeGroup name read.1 read.2)
        (node (close file name (items file fuel (skipLayout inside.rest) arena)))
      cases hread : readItems fuel inside with
      | error frontier =>
          rw [hread] at hinside
          exact congrArg Prod.fst (node_of_none (close_of_unclosed hinside))
      | ok closed =>
          rw [hread] at hinside
          obtain ⟨stop, hstop, hresult⟩ := hinside
          rw [hresult]
          exact plants_close hstop

theorem items_nil {stop : List Char} {after : Arena}
    (hnil : items file fuel text arena = (some ([], stop), after)) : stop = text := by
  cases fuel with
  | zero => cases hnil
  | succ fuel =>
      rw [items] at hnil
      split at hnil
      next => exact (Prod.mk.inj (Option.some.inj (Prod.mk.inj hnil).1)).2.symm
      next =>
          split at hnil
          next => cases hnil
          next => cases hnil

/-- Whether or not an item follows the layout, the parenthesis is found behind it. -/
theorem skipLayout_last {ids : List Id} {last : List Char} {after : Arena}
    (hread : items file fuel (skipLayout text) arena = (some (ids, last), after)) :
    skipLayout (if ids.isEmpty then text else last) = skipLayout last := by
  cases ids with
  | nil =>
      rw [items_nil hread, skipLayout_skipLayout]
      rfl
  | cons => rfl

theorem plantsEach_stop {frontier : Frontier}
    (hitem : (item file (items file fuel) text arena).1 = none)
    (hopen : ∀ rest, skipLayout text ≠ ')' :: rest) :
    PlantsEach file arena (.error frontier) (items file (fuel + 1) text arena) := by
  cases hresult : item file (items file fuel) text arena with
  | mk read after =>
      rw [hresult] at hitem
      obtain rfl : read = none := hitem
      rw [items, hresult]
      intro read hread
      obtain rfl := Option.some.inj hread
      exact hopen

theorem plantsEach_cons {sketch : Sketch} {next : Cursor}
    (hitem : Plants file arena (.ok (sketch, next)) (item file (items file fuel) text arena))
    (hrest : PlantsEach file (sketch.plant file arena).2 (readItems fuel next)
      (items file fuel (skipLayout next.rest) (sketch.plant file arena).2)) :
    PlantsEach file arena
      (readItems fuel next >>= fun others => pure (sketch :: others.1, others.2))
      (items file (fuel + 1) text arena) := by
  have hplanted : item file (items file fuel) text arena =
    (some ((sketch.plant file arena).1, next.rest), (sketch.plant file arena).2) := hitem
  rw [items, hplanted]
  dsimp only
  cases hread : readItems fuel next with
  | error frontier =>
      -- Where the other items fail, one item more does not help: no parenthesis follows it either.
      rw [hread] at hrest
      split
      next ids last after hresult =>
          rw [hresult] at hrest
          intro read hmem
          obtain rfl := Option.some.inj hmem
          dsimp only
          rw [skipLayout_last hresult]
          exact hrest _ rfl
      next => exact fun read hmem => nomatch hmem
  | ok others =>
      obtain ⟨sketches, last⟩ := others
      rw [hread] at hrest
      obtain ⟨stop, hstop, hresult⟩ := hrest
      rw [hresult]
      refine ⟨if (plantEach file sketches (sketch.plant file arena).2).1.isEmpty then next.rest
        else stop, (skipLayout_last hresult).trans hstop, ?_⟩
      rw [plantEach]

theorem group_of_not_open {readItems : ItemsReader} (hopen : ∀ inside, text ≠ '(' :: inside) :
    group file readItems text arena = (none, arena) := by
  rw [group]
  exact hopen

theorem item_of_not_open {readItems : ItemsReader} (hopen : ∀ inside, text ≠ '(' :: inside) :
    item file readItems text arena = node
      ((token? text).map fun (token, rest) => (.leaf token.kind (.raw token.raw), rest), arena) := by
  rw [item, group_of_not_open hopen]
  rfl

theorem plants_token (file : String) (readItems : ItemsReader) (arena : Arena) (cursor : Cursor)
    (hopen : ∀ inside, cursor.rest ≠ '(' :: inside) :
    Plants file arena (readToken cursor >>= fun read => pure (leaf read.1, read.2))
      (item file readItems cursor.rest arena) := by
  rw [item_of_not_open hopen, token?_eq]
  cases readToken cursor with
  | error frontier => exact rfl
  | ok read =>
      change node _ = _
      rw [plant, ← Arena.promote_leaf]
      rfl

/-- No token starts like a group, so a group that fails is not read as anything else. -/
theorem plants_open (hitems : Agree file fuel arena) (cursor : Cursor) :
    Plants file arena (readGroup fuel cursor)
      (item file (items file fuel) ('(' :: cursor.rest) arena) := by
  have hgroup := plants_group hitems cursor
  rw [item]
  generalize node (group file (items file fuel) ('(' :: cursor.rest) arena) = result at hgroup
  cases hread : readGroup fuel cursor with
  | error frontier =>
      rw [hread] at hgroup
      obtain ⟨read, after⟩ := result
      obtain rfl : read = none := hgroup
      exact rfl
  | ok read =>
      rw [hread] at hgroup
      obtain rfl : result = _ := hgroup
      exact rfl

/-- One round, in which an item was read in the same way by both readers. -/
theorem plantsEach_round {reading : Reading (Sketch × Cursor)}
    (hunclosed : ∀ rest, skipLayout text ≠ ')' :: rest)
    (hitem : Plants file arena reading (item file (items file fuel) text arena))
    (hrest : ∀ arena, Agree file fuel arena) :
    PlantsEach file arena
      (reading >>= fun read =>
        readItems fuel read.2 >>= fun others => pure (read.1 :: others.1, others.2))
      (items file (fuel + 1) text arena) := by
  cases reading with
  | error frontier => exact plantsEach_stop hitem hunclosed
  | ok read => exact plantsEach_cons hitem (hrest _ read.2)

/-- An alternative that is given up after nodes have been allocated makes the items around it
fail. -/
theorem agree (file : String) (fuel : Nat) (arena : Arena) : Agree file fuel arena := by
  induction fuel generalizing arena with
  | zero => exact fun _ _ hread => nomatch hread
  | succ fuel ih =>
      intro cursor
      have hskipped := skipLayout_skipLayout cursor.rest
      rw [skipLayout_rest] at hskipped ⊢
      rw [readItems]
      dsimp only [rest_expect]
      split
      next inside hclose =>
          -- No item starts with the parenthesis that closes the group.
          rw [hclose]
          refine ⟨')' :: inside, ?_, rfl⟩
          rw [rest_advance, rest_expect, hclose]
          rfl
      next inside hopen =>
          have hitem := plants_open (ih arena) ((cursor.skipLayout.expect itemStarts).advance 1)
          rw [rest_advance, rest_expect, hopen, List.drop_succ_cons, List.drop_zero] at hitem
          have hunclosed : ∀ rest, skipLayout ('(' :: inside) ≠ ')' :: rest := by
            intro rest hclose
            rw [← hopen, hskipped, hopen] at hclose
            cases hclose
          have hround := plantsEach_round hunclosed hitem ih
          -- `readItems` spells the steps of the group out one after another.
          rw [readGroup] at hround
          simp only [bind_assoc] at hround
          rw [hopen]
          exact hround
      next hclose hopen =>
          have hitem := plants_token file (items file fuel) arena
            ((cursor.skipLayout.expect itemStarts).expect [.closeGroup]) hopen
          rw [rest_expect, rest_expect] at hitem
          have hround := plantsEach_round (fun rest => hskipped.symm ▸ hclose rest) hitem ih
          simp only [bind_assoc, pure_bind] at hround
          exact hround

/-! ## Whole texts -/

theorem readAll_eq (source : List Char) :
    readAll source =
      let start := Cursor.skipLayout { rest := source }
      match start.rest with
      | '(' :: _ => readGroup (source.length + 1) (start.advance 1) >>= fun read =>
        if read.2.skipLayout.rest.isEmpty then pure (read.1, read.2.skipLayout)
        else .error (read.2.skipLayout.expect [.endOfText]).furthest
      | _ => .error (start.expect [.openGroup]).furthest := by
  simp only [readGroup, bind_assoc]
  rfl

theorem whole_of_none {result : Option (Id × List Char) × Arena} (hnone : result.1 = none) :
    (whole result).1 = none := by
  obtain ⟨read, after⟩ := result
  obtain rfl : read = none := hnone
  rfl

/-- What was read is all that is planted, or nothing could be read. -/
def PlantsAlone (file : String) (reading : Reading (Sketch × Cursor))
    (result : Option Id × Arena) : Prop :=
  match reading with
  | .ok (sketch, _) => result = (some (sketch.plant file {}).1, (sketch.plant file {}).2)
  | .error _ => result.1 = none

theorem plantsAlone_whole {sketch : Sketch} {next : Cursor} {frontier : Frontier}
    {result : Option (Id × List Char) × Arena}
    (hplants : Plants file {} (.ok (sketch, next)) result) :
    PlantsAlone file
      (if next.skipLayout.rest.isEmpty then pure (sketch, next.skipLayout) else .error frontier)
      (whole result) := by
  obtain rfl : result = _ := hplants
  rw [whole, skipLayout_rest]
  split
  next => exact rfl
  next => exact rfl

/-- A text that can be read is planted, with nothing besides it, and no other text is a tree. -/
theorem plantsAlone_tree (file source : String) :
    PlantsAlone file (readAll source.toList) (tree file source) := by
  have hskip : skipLayout source.toList = (Cursor.skipLayout { rest := source.toList }).rest := rfl
  rw [readAll_eq, tree]
  dsimp only
  rw [hskip]
  generalize Cursor.skipLayout { rest := source.toList } = start
  split
  next inside hrest =>
      have hgroup := plants_group (agree file (source.toList.length + 1) {}) (start.advance 1)
      rw [rest_advance, hrest, List.drop_succ_cons, List.drop_zero] at hgroup
      rw [hrest]
      cases hread : readGroup (source.toList.length + 1) (start.advance 1) with
      | error frontier =>
          rw [hread] at hgroup
          exact whole_of_none hgroup
      | ok read =>
          rw [hread] at hgroup
          exact plantsAlone_whole hgroup
  next hopen =>
      rw [group_of_not_open hopen]
      exact rfl

/-- Both readers accept the same texts, and then leave the same arena. -/
theorem tree_eq_iff {source : String} {root : Id} :
    tree file source = (some root, arena) ↔ parseSource file source = .ok (root, arena) := by
  have htree := plantsAlone_tree file source
  rw [parseSource, parse]
  cases hread : readAll source.toList with
  | error cause =>
      rw [hread] at htree
      constructor
      · intro hsome
        rw [hsome] at htree
        cases htree
      · intro hok
        cases hok
  | ok read =>
      rw [hread] at htree
      obtain ⟨sketch, last⟩ := read
      have hplanted : tree file source =
        (some (sketch.plant file {}).1, (sketch.plant file {}).2) := htree
      rw [hplanted]
      simp [Prod.ext_iff]

end AstPromotion.Sketch.Choice
