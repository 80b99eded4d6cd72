import AstPromotion.Proofs.Promotion.Step

/-! # Where the fields of a construct come from

Most constructs take their fields from the children of the grouping they replace.
An index write opens up a call and takes its two fields, and a class literal
takes its constructor out of its body. These three cases are all that ownership
depends on.
-/

namespace AstPromotion.Promotion

variable {α : Type} {look : α → Form α}

/-- The constructor found among statements is or is defined by the first statement that holds
one; the other statements keep their order. -/
theorem exists_of_takeConstructor? {statements others : List α} {function : α}
    (htaken : takeConstructor? look statements = some (function, others)) :
    ∃ before statement after, statements = before ++ statement :: after ∧
      others = before ++ after ∧ constructorOf? look statement = some function ∧
        ∀ earlier ∈ before, constructorOf? look earlier = none := by
  induction statements generalizing others with
  | nil => cases htaken
  | cons statement rest ih =>
      rw [takeConstructor?] at htaken
      split at htaken
      next found hfound =>
          obtain ⟨rfl, rfl⟩ := Prod.mk.inj (Option.some.inj htaken)
          exact ⟨[], statement, rest, rfl, rfl, hfound, List.forall_mem_nil _⟩
      next hnone =>
          obtain ⟨⟨found, later⟩, hrest, heq⟩ := Option.map_eq_some_iff.mp htaken
          obtain ⟨rfl, rfl⟩ := Prod.mk.inj heq
          obtain ⟨before, holder, after, rfl, rfl, hfound, hearlier⟩ := ih hrest
          refine ⟨statement :: before, holder, after, rfl, rfl, hfound, ?_⟩
          intro earlier hmem
          rcases List.mem_cons.mp hmem with rfl | hmem
          · exact hnone
          · exact hearlier earlier hmem

theorem takeConstructor?_eq_none {statements : List α}
    (htaken : takeConstructor? look statements = none) :
    ∀ statement ∈ statements, constructorOf? look statement = none := by
  induction statements with
  | nil => exact List.forall_mem_nil _
  | cons statement rest ih =>
      rw [takeConstructor?] at htaken
      split at htaken
      next => cases htaken
      next hnone =>
          intro other hother
          rcases List.mem_cons.mp hother with rfl | hother
          · exact hnone
          · exact ih (Option.map_eq_none_iff.mp htaken) other hother

/-- A constructor is a function literal of that name, by itself or under a definition. -/
theorem eq_or_eq_of_constructorOf? {statement function : α}
    (hfound : constructorOf? look statement = some function) :
    (statement = function ∨ look statement = .functionDefinition function) ∧
      isFunctionNamed look "constructor" function = true := by
  rw [constructorOf?] at hfound
  obtain ⟨hcandidate, hnamed⟩ := Option.filter_eq_some_iff.mp hfound
  refine ⟨?_, hnamed⟩
  split at hcandidate
  next candidate hform =>
      obtain rfl := Option.some.inj hcandidate
      exact Or.inr hform
  next => exact Or.inl (Option.some.inj hcandidate)
  next => cases hcandidate

/-- Where promotion takes the fields of a built form from. -/
inductive Fields (look : α → Form α) (subject : α) : Form α → Option (α × List α) → Prop
  | own {form : Form α} (hfields : form.children.Sublist (look subject).children) :
      Fields look subject form none
  | opened {target mark value callee arguments : α}
      (hchildren : (look subject).children = [target, mark, value])
      (htarget : look target = .call callee arguments) :
      Fields look subject (.arrayIndexWrite callee arguments value) none
  | extracted {word name opening body closing function : α} {items others : List α}
      (hchildren : (look subject).children = [word, name, opening, body, closing])
      (hbody : look body = .group .block items)
      (htaken : takeConstructor? look items = some (function, others)) :
      Fields look subject (.classLiteral name (some function) body) (some (body, others))

theorem exists_of_kind_block {form : Form α} (hkind : form.kind = .group .block) :
    ∃ items, form = .group .block items := by
  obtain ⟨heading, items, rfl⟩ := Form.exists_of_kind_group hkind
  cases heading with
  | block => exact ⟨items, rfl⟩
  | _ => cases hkind

theorem fields_of_step {subject : α} {form : Form α} {relisted : Option (α × List α)}
    (hstep : Step look subject (.build form relisted)) : Fields look subject form relisted := by
  generalize hedit : Edit.build form relisted = edit at hstep
  cases hstep with
  | indexWrite hsubject hchildren htarget hmark hvalue =>
      cases hedit
      exact .opened hchildren htarget
  | classLiteral hsubject hchildren hword hname hbraced =>
      obtain ⟨items, hbody⟩ := exists_of_kind_block hbraced.body
      rw [planClass, hbody] at hedit
      split at hedit
      next function others htaken =>
          cases hedit
          exact .extracted hchildren hbody htaken
      next =>
          cases hedit
          refine .own ?_
          rw [hchildren]
          simp [Form.children]
  | unwrapIf | unwrapSettled | dropEmpty => cases hedit
  | ifElse hsubject hchildren =>
      cases hedit
      refine .own ?_
      rw [hchildren]
      exact .cons _ (.cons _ (.cons_cons _ (.cons _ (.cons _ (.cons_cons _ (.cons _ (.cons _
        (.cons _ (.cons_cons _ (.cons _ .slnil))))))))))
  | elseIf hsubject hchildren =>
      cases hedit
      refine .own ?_
      rw [hchildren]
      exact .cons _ (.cons _ (.cons_cons _ (.cons _ (.cons _ (.cons_cons _ (.cons _ (.cons _
        (.cons_cons _ .slnil))))))))
  | unary hsubject hchildren | binary hsubject hchildren | comparison hsubject hchildren
  | assignment hsubject hchildren | declaration hsubject hchildren
  | initialisation hsubject hchildren | call hsubject hchildren | member hsubject hchildren
  | namedFunction hsubject hchildren | unnamedFunction hsubject hchildren
  | ifStatement hsubject hchildren | whileStatement hsubject hchildren
  | functionDefinition hsubject hchildren | classDefinition hsubject hchildren =>
      cases hedit
      refine .own ?_
      rw [hchildren]
      simp [Form.children]

/-- An index write opens up the call that is assigned to. -/
theorem exists_of_step_indexWrite {subject array index value : α}
    {relisted : Option (α × List α)}
    (hstep : Step look subject (.build (.arrayIndexWrite array index value) relisted)) :
    ∃ target mark, (look subject).children = [target, mark, value] ∧
      look target = .call array index ∧ (look mark).kind = operatorKind .assignment := by
  generalize hedit : Edit.build (Form.arrayIndexWrite array index value) relisted = edit at hstep
  cases hstep with
  | indexWrite _ hchildren htarget hmark _ =>
      cases hedit
      exact ⟨_, _, hchildren, htarget, hmark⟩
  | classLiteral =>
      rw [planClass] at hedit
      split at hedit <;> cases hedit
  | _ => cases hedit

/-- Only a class takes something out of a list: the constructor out of its body. -/
theorem exists_of_step_relisted {subject : α} {form : Form α} {relisted : α × List α}
    (hstep : Step look subject (.build form (some relisted))) :
    ∃ word name opening body closing items function others,
      (look subject).children = [word, name, opening, body, closing] ∧
        (look word).isKeyword "class" = true ∧ (look name).kind = identifierKind ∧
          Braced look opening body closing ∧ look body = .group .block items ∧
            takeConstructor? look items = some (function, others) ∧
              form = .classLiteral name (some function) body ∧ relisted = (body, others) := by
  generalize hedit : Edit.build form (some relisted) = edit at hstep
  cases hstep with
  | @classLiteral word name opening body closing _ hchildren hword hname hbraced =>
      obtain ⟨items, hbody⟩ := exists_of_kind_block hbraced.body
      rw [planClass, hbody] at hedit
      split at hedit
      next function others htaken =>
          cases hedit
          exact ⟨word, name, opening, body, closing, items, function, others, hchildren, hword, hname,
            hbraced, hbody, htaken, rfl, rfl⟩
      next => cases hedit
  | _ => cases hedit

/-- A class literal is always built. -/
theorem exists_planClass_eq (look : α → Form α) (name body : α) :
    ∃ form relisted, planClass look name body = .build form relisted := by
  rw [planClass]
  split <;> exact ⟨_, _, rfl⟩

/-- Promotion reads no payloads. -/
theorem not_step_coerce {subject : α} {value : Value} : ¬ Step look subject (.coerce value) := by
  intro hstep
  generalize hedit : Edit.coerce value = edit at hstep
  cases hstep with
  | classLiteral =>
      obtain ⟨form, relisted, hbuild⟩ := exists_planClass_eq look _ _
      rw [hbuild] at hedit
      cases hedit
  | _ => cases hedit

/-- What promotion lifts is an only child. -/
theorem children_of_step_lift {subject child : α} (hstep : Step look subject (.lift child)) :
    (look subject).children = [child] := by
  generalize hedit : Edit.lift child = edit at hstep
  cases hstep with
  | unwrapIf _ hchildren _ | unwrapSettled _ hchildren _ =>
      cases hedit
      exact hchildren
  | classLiteral =>
      obtain ⟨form, relisted, hbuild⟩ := exists_planClass_eq look _ _
      rw [hbuild] at hedit
      cases hedit
  | _ => cases hedit

/-- What promotion removes is empty. -/
theorem children_of_step_remove {subject : α} (hstep : Step look subject .remove) :
    (look subject).children = [] := by
  generalize hedit : (Edit.remove : Edit α) = edit at hstep
  cases hstep with
  | dropEmpty _ hchildren => exact hchildren
  | classLiteral =>
      obtain ⟨form, relisted, hbuild⟩ := exists_planClass_eq look _ _
      rw [hbuild] at hedit
      cases hedit
  | _ => cases hedit

/-- Promotion builds nothing but constructs. -/
theorem exists_kind_of_step {subject : α} {form : Form α} {relisted : Option (α × List α)}
    (hstep : Step look subject (.build form relisted)) : ∃ built, form.kind = .construct built := by
  generalize hedit : Edit.build form relisted = edit at hstep
  cases hstep with
  | classLiteral hsubject hchildren hword hname hbraced =>
      rw [planClass] at hedit
      split at hedit <;> cases hedit <;> exact ⟨_, rfl⟩
  | unwrapIf | unwrapSettled | dropEmpty => cases hedit
  | _ => cases hedit; exact ⟨_, rfl⟩

/-- Only a provisional grouping is ever promoted. -/
theorem exists_kind_subject_of_step {subject : α} {edit : Edit α} (hstep : Step look subject edit) :
    ∃ grouping, (look subject).kind = .group (.provisional grouping) := by
  have hprimitive {kind : Kind} (hkind : isProvisional kind = true) :
      ∃ grouping, kind = .group (.provisional grouping) := by
    rcases kind with kind | (grouping | _ | _ | _ | _) | built
    · rcases kind with _ | _ | (_ | _) <;> cases hkind
    · exact ⟨grouping, rfl⟩
    · cases hkind
    · cases hkind
    · cases hkind
    · cases hkind
    · cases hkind
  cases hstep with
  | unwrapIf hsubject | ifStatement hsubject | ifElse hsubject | elseIf hsubject
  | whileStatement hsubject | functionDefinition hsubject | classDefinition hsubject
  | dropEmpty hsubject => exact ⟨_, hsubject⟩
  | unwrapSettled hsubject =>
      simp only [List.mem_cons, List.not_mem_nil, or_false] at hsubject
      rcases hsubject with hsubject | hsubject <;> exact ⟨_, hsubject⟩
  | _ => exact hprimitive ‹_›

end AstPromotion.Promotion
