import AstPromotion.Proofs.Offering
import AstPromotion.Proofs.Promotion.Precedence
import AstPromotion.Proofs.Reachable

/-! # Constructors of classes

A class literal takes the first constructor among the statements of its body and
nothing else. The statement goes with it, the other statements keep their order,
and the constructor is then held by the class alone.
-/

namespace AstPromotion

namespace Promotion

variable {α : Type} {look : α → Form α}

/-- The statement is a function literal named `constructor`, or the definition of one. -/
structure Declares (look : α → Form α) (statement function : α) : Prop where
  stated : statement = function ∨ look statement = .functionDefinition function
  named : ∃ name parameters body, look function = .functionLiteral (some name) parameters body ∧
    (look name).word? = some "constructor"

theorem isFunctionNamed_iff {word : String} {function : α} :
    isFunctionNamed look word function = true ↔ ∃ name parameters body,
      look function = .functionLiteral (some name) parameters body ∧ (look name).word? = some word := by
  rw [isFunctionNamed]
  constructor
  · intro hnamed
    split at hnamed
    next name parameters body hform => exact ⟨name, parameters, body, hform, beq_iff_eq.mp hnamed⟩
    next => cases hnamed
  · rintro ⟨name, parameters, body, hform, hword⟩
    rw [hform]
    exact beq_iff_eq.mpr hword

theorem constructorOf?_eq_some_iff {statement function : α} :
    constructorOf? look statement = some function ↔ Declares look statement function := by
  constructor
  · intro hfound
    obtain ⟨hstated, hnamed⟩ := eq_or_eq_of_constructorOf? hfound
    exact ⟨hstated, isFunctionNamed_iff.mp hnamed⟩
  · rintro ⟨hstated, hnamed⟩
    rw [constructorOf?, Option.filter_eq_some_iff]
    refine ⟨?_, isFunctionNamed_iff.mpr hnamed⟩
    rcases hstated with rfl | hform
    · obtain ⟨name, parameters, body, hform, -⟩ := hnamed
      rw [hform]
    · rw [hform]

theorem constructorOf?_eq_none_iff {statement : α} :
    constructorOf? look statement = none ↔ ∀ function, ¬ Declares look statement function := by
  simp only [Option.eq_none_iff_forall_ne_some, ne_eq, constructorOf?_eq_some_iff]

/-- A grouping that spells a class becomes the class, whatever the body holds. -/
theorem plan?_of_class {subject word name opening body closing : α}
    (hsubject : isProvisional (look subject).kind = true)
    (hchildren : (look subject).children = [word, name, opening, body, closing])
    (hword : (look word).isKeyword "class" = true) (hname : (look name).kind = identifierKind)
    (hbraced : Braced look opening body closing) :
    catalogue.plan? look subject = some (classLiteral.name, planClass look name body) := by
  have hrule : classLiteral.plan? look subject = some (planClass look name body) := by
    have haccepted := acceptEach_braced [] [] hbraced
    rw [List.append_nil] at haccepted
    refine Rule.plan?_of_accepted rfl hsubject ?_ ?_
    · simp [hchildren, hword, hname, haccepted, Test.acceptEach]
    · simp [Outcome.plan?, hchildren]
  -- No other rule takes five children.
  have hfive : catalogue.filter (·.fits 5) = [classLiteral] := rfl
  have hcount : (look subject).children.length = 5 := by rw [hchildren]; rfl
  rw [← Catalogue.plan?_filter catalogue hcount, hfive, Catalogue.plan?, List.findSome?_cons, hrule]
  rfl

end Promotion

namespace Arena

open Promotion (Declares Braced)

variable {arena : Arena} {root id : Id}

/-! ## Taking the constructor out of the body -/

variable {before after : Arena} {body statement function : Id} {earlier later : List Id}

/-- What was below a child that a node gave up is no longer below the node. -/
theorem IsTree.not_reaches_of_given_up (htree : before.IsTree body)
    (hitems : before.children body = earlier ++ statement :: later)
    (hleft : after.children body = earlier ++ later)
    (hforms : ∀ other < before.size, other ≠ body → after.form other = before.form other)
    (hreaches : before.Reaches statement id) : ¬ after.Reaches body id := by
  have hitem {other : Id} (hother : other ∈ earlier ++ later) : other ∈ before.children body := by
    rw [hitems]
    rcases List.mem_append.mp hother with hother | hother <;> simp [hother]
  -- Below the body there is only what was below the children that it kept.
  have hkept {below : Id} (hbelow : after.Reaches body below) :
      below = body ∨ ∃ other ∈ earlier ++ later, before.Reaches other below := by
    induction hbelow with
    | root => exact Or.inl rfl
    | @child holder below _ hchild ih =>
        right
        rcases ih with rfl | ⟨other, hother, hholder⟩
        · exact ⟨below, hleft ▸ hchild, .root⟩
        · have hne : holder ≠ body := by
            rintro rfl
            exact htree.not_reaches_root (hitem hother) hholder
          have hinside := (htree.of_reaches (.child .root (hitem hother))).lt_size hholder
          rw [children, hforms holder hinside hne] at hchild
          exact ⟨other, hother, hholder.child hchild⟩
  intro hbelow
  rcases hkept hbelow with rfl | ⟨other, hother, hother_reaches⟩
  · exact htree.not_reaches_root (hitems ▸ by simp) hreaches
  · exact htree.not_reaches_of_sibling hitems hother hreaches hother_reaches

theorem reaches_of_declares (hdeclares : Declares before.form statement function) :
    before.Reaches statement function := by
  rcases hdeclares.stated with rfl | hdefinition
  · exact .root
  · refine .child .root ?_
    rw [children, hdefinition]
    exact List.mem_singleton_self function

/-- A body has given up its first constructor to the class that was built last. -/
structure GivenUp (before after : Arena) (body : Id) (earlier : List Id) (statement : Id)
    (later : List Id) (function : Id) : Prop where
  items : before.children body = earlier ++ statement :: later
  declares : Declares before.form statement function
  first : ∀ other ∈ earlier, ∀ function, ¬ Declares before.form other function
  left : after.form body = .group .block (earlier ++ later)
  parent : (after.node function).parent = some before.size
  unreachable : ¬ after.Reaches body function
  gone : ∀ id, before.Reaches statement id → ¬ after.Reaches body id

/-- A class literal has been built, with the first constructor of the body if there is one. -/
structure BuiltClass (before after : Arena) (name body : Id) (constructor : Option Id) : Prop where
  size_eq : after.size = before.size + 1
  form_eq : after.form before.size = .classLiteral name constructor body
  isSome_iff : constructor.isSome = true ↔
    ∃ statement ∈ before.children body, ∃ function, Declares before.form statement function
  taken : ∀ function, constructor = some function →
    ∃ earlier statement later, GivenUp before after body earlier statement later function
  kept : ∀ other < before.size, constructor = none ∨ other ≠ body →
    after.form other = before.form other

theorem rewrite_of_build {rule : String} {form : Form Id} {relisted : Option (Id × List Id)}
    (hplan : Promotion.catalogue.plan? arena.form id = some (rule, .build form relisted)) :
    arena.rewrite .promotion id =
      (some { rule, rewrite := .replace (arena.regroup relisted).size },
        ((arena.regroup relisted).promote form).2.setBuildTime (arena.regroup relisted).size 0) := by
  simp only [rewrite, Phase.catalogue, hplan]
  cases relisted <;> rfl

section Build

variable {arena : Arena} {name body function : Id} {items others : List Id}

/-- A group with a new list keeps its heading, and no other node changes. -/
theorem form_regroup {heading : Heading} (hbody : arena.form body = .group heading items)
    (hinside : body < arena.size) (others : List Id) (id : Id) :
    (arena.regroup (some (body, others))).form id =
      if id = body then .group heading others else arena.form id := by
  have hnode := node_setForm arena hinside ((arena.form body).mapItems fun _ => others) id
  rw [form, regroup, hnode, hbody]
  split <;> rfl

theorem form_setBuildTime_promote {form : Form Id}
    (hinside : ∀ child ∈ form.children, child < arena.size) (id : Id) :
    ((arena.promote form).2.setBuildTime arena.size 0).form id =
      if id = arena.size then form else arena.form id := by
  rw [Arena.form, node_setBuildTime_promote hinside]
  split
  next => rfl
  next => split <;> rfl

theorem builtClass_of_none (hname : name < arena.size) (hbody : body < arena.size)
    (htaken : takeConstructor? arena.form (arena.children body) = none) :
    BuiltClass arena
      ((arena.promote (.classLiteral name none body)).2.setBuildTime arena.size 0) name body none := by
  have hinside : ∀ child ∈ (Form.classLiteral name none body).children, child < arena.size := by
    intro child hchild
    rcases List.mem_pair.mp hchild with rfl | rfl
    · exact hname
    · exact hbody
  exact {
    size_eq := by rw [size_setBuildTime, size_promote]
    form_eq := by rw [form_setBuildTime_promote hinside, if_pos rfl]
    isSome_iff := by
      refine ⟨fun hsome => absurd hsome Bool.false_ne_true, ?_⟩
      rintro ⟨statement, hstatement, function, hdeclares⟩
      have hnone := Promotion.takeConstructor?_eq_none htaken statement hstatement
      exact absurd hdeclares (Promotion.constructorOf?_eq_none_iff.mp hnone function)
    taken := fun _ hfunction => nomatch hfunction
    kept := fun other hother _ => by
      rw [form_setBuildTime_promote hinside, if_neg (Nat.ne_of_lt hother)] }

theorem builtClass_of_some (htree : arena.IsTree body) (hname : name < arena.size)
    (hbody : arena.form body = .group .block items)
    (htaken : takeConstructor? arena.form items = some (function, others)) :
    BuiltClass arena
      (((arena.regroup (some (body, others))).promote
        (.classLiteral name (some function) body)).2.setBuildTime arena.size 0)
      name body (some function) := by
  obtain ⟨earlier, statement, later, rfl, rfl, hfound, hfirst⟩ :=
    Promotion.exists_of_takeConstructor? htaken
  have hdeclares := Promotion.constructorOf?_eq_some_iff.mp hfound
  have hitems : arena.children body = earlier ++ statement :: later := by
    rw [children, hbody]
    rfl
  have hstatement : statement ∈ arena.children body := hitems ▸ by simp
  have hbody_inside : body < arena.size := htree.lt_size .root
  have hfunction_inside : function < arena.size :=
    (htree.of_reaches (.child .root hstatement)).lt_size (reaches_of_declares hdeclares)
  have hsize : (arena.regroup (some (body, earlier ++ later))).size = arena.size :=
    size_setForm arena body _
  have hinside : ∀ child ∈ (Form.classLiteral name (some function) body).children,
      child < (arena.regroup (some (body, earlier ++ later))).size := by
    intro child hchild
    rw [hsize]
    have hfield : child = name ∨ child = function ∨ child = body := by
      simpa [Form.children] using hchild
    rcases hfield with rfl | rfl | rfl
    · exact hname
    · exact hfunction_inside
    · exact hbody_inside
  have hform := form_setBuildTime_promote hinside
  have hnode := node_setBuildTime_promote hinside function
  have hgrown := (size_setBuildTime _ arena.size 0).trans (size_promote
    (arena.regroup (some (body, earlier ++ later))) (.classLiteral name (some function) body))
  simp only [hsize, form_regroup hbody hbody_inside] at hform hnode hgrown
  -- From here on only the nodes of the resulting arena matter.
  generalize (Arena.promote _ _).2.setBuildTime arena.size 0 = after at hform hnode hgrown ⊢
  have hkept (other : Id) (hother : other < arena.size) (hne : other ≠ body) :
      after.form other = arena.form other := by
    rw [hform, if_neg (Nat.ne_of_lt hother), if_neg hne]
  have hleft : after.form body = .group .block (earlier ++ later) := by
    rw [hform, if_neg (Nat.ne_of_lt hbody_inside), if_pos rfl]
  have hgone (below : Id) (hbelow : arena.Reaches statement below) : ¬ after.Reaches body below := by
    refine htree.not_reaches_of_given_up hitems ?_ hkept hbelow
    rw [children, hleft]
    rfl
  exact {
    size_eq := hgrown
    form_eq := by rw [hform, if_pos rfl]
    isSome_iff := ⟨fun _ => ⟨statement, hstatement, function, hdeclares⟩, fun _ => rfl⟩
    taken := by
      intro taken htaken
      obtain rfl := Option.some.inj htaken
      exact ⟨earlier, statement, later, {
        items := hitems
        declares := hdeclares
        first := fun other hother =>
          Promotion.constructorOf?_eq_none_iff.mp (hfirst other hother)
        left := hleft
        parent := by
          rw [hnode, if_neg (Nat.ne_of_lt hfunction_inside), if_pos (by simp [Form.children])]
        unreachable := hgone function (reaches_of_declares hdeclares)
        gone := hgone }⟩
    kept := by
      rintro other hother (hnone | hne)
      · cases hnone
      · exact hkept other hother hne }

end Build

/-- Whatever the statements of its body are, a grouping that spells a class is replaced by the class,
whose constructor is the first one that a statement of the body is or defines. -/
theorem rewrite_class {grouping : Provisional} {word name opening closing : Id}
    (htree : arena.IsTree id)
    (hform : arena.form id =
      .group (.provisional grouping) [word, name, opening, body, closing])
    (hword : (arena.form word).isKeyword "class" = true)
    (hname : arena.kind name = .leaf (.literal .identifier))
    (hbraced : Braced arena.form opening body closing) :
    ∃ constructor after,
      arena.rewrite .promotion id =
        (some { rule := "class literal", rewrite := .replace arena.size }, after) ∧
        BuiltClass arena after name body constructor := by
  have hchildren : (arena.form id).children = [word, name, opening, body, closing] := by
    rw [hform]
    rfl
  have hsubject : Promotion.isProvisional (arena.form id).kind = true := by
    rw [hform]
    cases grouping <;> rfl
  have hname_reaches : arena.Reaches id name := .child .root (by simp [children, hchildren])
  have hbody_reaches : arena.Reaches id body := .child .root (by simp [children, hchildren])
  have hname_inside := htree.lt_size hname_reaches
  obtain ⟨items, hbody⟩ := Promotion.exists_of_kind_block hbraced.body
  have hplan := Promotion.plan?_of_class hsubject hchildren hword hname hbraced
  rw [planClass] at hplan
  cases htaken : takeConstructor? arena.form (arena.children body) with
  | none =>
      rw [← children, htaken] at hplan
      exact ⟨none, _, rewrite_of_build hplan,
        builtClass_of_none hname_inside (htree.lt_size hbody_reaches) htaken⟩
  | some taken =>
      obtain ⟨function, others⟩ := taken
      rw [← children, htaken] at hplan
      have hsize : (arena.regroup (some (body, others))).size = arena.size :=
        size_setForm arena body _
      have hrewrite := rewrite_of_build hplan
      rw [hsize] at hrewrite
      rw [children, hbody] at htaken
      exact ⟨some function, _, hrewrite,
        builtClass_of_some (htree.of_reaches hbody_reaches) hname_inside hbody htaken⟩

/-- A class with two constructors, the first of them in a definition. -/
def twoConstructors : Arena where
  nodes := #[
    { form := .group (.provisional .temporary) [1, 2, 3, 4, 5] },
    { form := .leaf .keyword (.name "class") },
    { form := .leaf (.literal .identifier) (.name "A") },
    { form := .leaf (.mark (.punctuation .leftCurly)) (.raw "\x7b") },
    { form := .group .block [6, 7, 12] },
    { form := .leaf (.mark (.punctuation .rightCurly)) (.raw "\x7d") },
    { form := .leaf (.literal .identifier) (.name "x") },
    { form := .functionDefinition 8, parent := some 4 },
    { form := .functionLiteral (some 9) 10 11, parent := some 7 },
    { form := .leaf (.literal .identifier) (.name "constructor") },
    { form := .group .argumentList [] },
    { form := .group .block [] },
    { form := .functionLiteral (some 13) 14 15, parent := some 4 },
    { form := .leaf (.literal .identifier) (.name "constructor") },
    { form := .group .argumentList [] },
    { form := .group .block [] }]

theorem rewrite_class_twoConstructors :
    twoConstructors.IsTree 0 ∧
      ∃ constructor after,
        twoConstructors.rewrite .promotion 0 =
          (some { rule := "class literal", rewrite := .replace 16 }, after) ∧
          BuiltClass twoConstructors after 2 4 constructor := by
  have htree : twoConstructors.IsTree 0 := by decide
  have hform : twoConstructors.form 0 = .group (.provisional .temporary) [1, 2, 3, 4, 5] := rfl
  exact ⟨htree, rewrite_class htree hform (by decide) rfl ⟨rfl, rfl, rfl⟩⟩

example :
    let after := (twoConstructors.rewrite .promotion 0).2
    after.form 16 = .classLiteral 2 (some 8) 4 ∧ after.form 4 = .group .block [6, 12] := by
  decide

end Arena

end AstPromotion
