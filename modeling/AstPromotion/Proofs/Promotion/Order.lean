import AstPromotion.Proofs.Promotion.Contents

/-! # How far contents move

A source order lists the same contents, and two of them change places only when
one was extracted as a constructor and the other belongs to the class's body.
-/

namespace AstPromotion

/-- One element comes before another in a row of lists. -/
theorem pair_sublist_append {α : Type} {x y : α} {front back : List α} :
    [x, y].Sublist (front ++ back) ↔
      [x, y].Sublist front ∨ (x ∈ front ∧ y ∈ back) ∨ [x, y].Sublist back := by
  constructor
  · intro hpair
    obtain ⟨first, second, heq, hfirst, hsecond⟩ := List.sublist_append_iff.mp hpair
    match first, second, heq with
    | [], _, rfl => exact Or.inr (Or.inr hsecond)
    | [_], [_], rfl =>
        exact Or.inr (Or.inl ⟨List.singleton_sublist.mp hfirst, List.singleton_sublist.mp hsecond⟩)
    | [_, _], [], rfl => exact Or.inl hfirst
  · rintro (hpair | ⟨hx, hy⟩ | hpair)
    · exact hpair.trans (List.sublist_append_left _ _)
    · exact (List.singleton_sublist.mpr hx).append (List.singleton_sublist.mpr hy)
    · exact hpair.trans (List.sublist_append_right _ _)

/-- A list has the elements of another, in the same order but for the pairs that were moved. -/
structure Rearranged {α : Type} (moved : α → α → Prop) (read source : List α) : Prop where
  perm : read.Perm source
  order : ∀ x y, [x, y].Sublist read → [x, y].Sublist source ∨ moved x y

namespace Rearranged

variable {α : Type} {moved : α → α → Prop} {read source read' source' : List α}

theorem refl (moved : α → α → Prop) (list : List α) : Rearranged moved list list where
  perm := List.Perm.refl _
  order _ _ := Or.inl

theorem mono {more : α → α → Prop} (h : Rearranged moved read source)
    (hmore : ∀ x y, moved x y → more x y) : Rearranged more read source where
  perm := h.perm
  order x y hpair := (h.order x y hpair).imp_right (hmore x y)

theorem append (hfirst : Rearranged moved read source) (hsecond : Rearranged moved read' source') :
    Rearranged moved (read ++ read') (source ++ source') where
  perm := hfirst.perm.append hsecond.perm
  order x y hpair := by
    rw [pair_sublist_append] at hpair ⊢
    rcases hpair with hpair | ⟨hx, hy⟩ | hpair
    · exact (hfirst.order x y hpair).imp_left Or.inl
    · exact Or.inl (Or.inr (Or.inl ⟨hfirst.perm.mem_iff.mp hx, hsecond.perm.mem_iff.mp hy⟩))
    · exact (hsecond.order x y hpair).imp_left fun h => Or.inr (Or.inr h)

/-- A part that was taken out of the middle now comes first. -/
theorem extract {part part' : List α} (hpart : Rearranged moved part part')
    (hfront : Rearranged moved read source) (hback : Rearranged moved read' source')
    (hmoved : ∀ x ∈ part, ∀ y ∈ read ++ read', moved x y) :
    Rearranged moved (part ++ (read ++ read')) (source ++ (part' ++ source')) where
  perm := by
    refine (hpart.perm.append (hfront.perm.append hback.perm)).trans ?_
    rw [← List.append_assoc, ← List.append_assoc]
    exact List.perm_append_comm.append_right _
  order x y hpair := by
    rw [pair_sublist_append] at hpair
    rcases hpair with hpair | ⟨hx, hy⟩ | hpair
    · refine (hpart.order x y hpair).imp_left fun h => ?_
      exact pair_sublist_append.mpr (Or.inr (Or.inr (pair_sublist_append.mpr (Or.inl h))))
    · exact Or.inr (hmoved x hx y hy)
    · have hrest := (hfront.append hback).order x y hpair
      refine hrest.imp_left fun h => h.trans ?_
      exact (List.Sublist.refl source).append (List.sublist_append_right part' source')

end Rearranged

namespace Term

variable {ι : Type} {terms : List (Term ι)} {contents : List (ι × Kind)}

/-- A class among the terms or below them, whose constructor holds one content and whose body holds
another. -/
def Extracted (terms : List (Term ι)) (x y : ι × Kind) : Prop :=
  ∃ term ∈ terms, ∃ inner ∈ term.subterms, ∃ name constructor body,
    inner.form = .classLiteral name (some constructor) body ∧ x ∈ constructor.contents ∧
      y ∈ body.contents

theorem Extracted.of_children {term : Term ι} {x y : ι × Kind} (h : Extracted term.children x y)
    (hterm : term ∈ terms) : Extracted terms x y := by
  obtain ⟨child, hchild, inner, hinner, hclass⟩ := h
  exact ⟨term, hterm, inner, mem_subterms_of_mem_children hchild hinner, hclass⟩

theorem Extracted.mono {others : List (Term ι)} {x y : ι × Kind} (h : Extracted others x y)
    (hsubset : others ⊆ terms) : Extracted terms x y := by
  obtain ⟨term, hterm, hclass⟩ := h
  exact ⟨term, hsubset hterm, hclass⟩

/-- The contents of a class with a constructor, as they are read. -/
theorem contents_of_classLiteral {term name constructor body : Term ι} {heading : Heading}
    {items : List (Term ι)} (hterm : term.form = .classLiteral name (some constructor) body)
    (hbody : body.form = .group heading items) :
    term.contents =
      name.contents ++ (constructor.contents ++ (body.own ++ items.flatMap Term.contents)) := by
  have hkind : term.kind = .construct .classLiteral := by
    rw [Term.kind, hterm]
    rfl
  have hown := own_of_construct hkind
  rw [Term.contents_eq, hown, children, hterm]
  simp [Form.children, Term.contents_eq body, Term.children, hbody]

/-- Contents are read in source order, except for constructors, which are read before the bodies
they were in. -/
theorem SourceOrder.rearranged (horder : SourceOrder terms contents) :
    Rearranged (Extracted terms) (terms.flatMap Term.contents) contents := by
  induction horder with
  | nil => exact .refl _ _
  | @plain term rest below others hplain hbelow hrest ihbelow ihrest =>
      have hchildren : Rearranged (Extracted (term :: rest)) (term.children.flatMap Term.contents)
          below := ihbelow.mono fun _ _ h => h.of_children List.mem_cons_self
      have hothers : Rearranged (Extracted (term :: rest)) (rest.flatMap Term.contents) others :=
        ihrest.mono fun _ _ h => h.mono fun _ => List.mem_cons_of_mem _
      rw [List.flatMap_cons, Term.contents_eq]
      exact ((Rearranged.refl _ term.own).append hchildren).append hothers
  | @extracted term name constructor body before after rest names earlier function later others hterm
      hbody hname hbefore hconstructor hafter hrest ihname ihbefore ihconstructor ihafter ihrest =>
      have hname_mem : name ∈ term.children := by simp [children, hterm, Form.children]
      have hconstructor_mem : constructor ∈ term.children := by simp [children, hterm, Form.children]
      have hbody_mem : body ∈ term.children := by simp [children, hterm, Form.children]
      have hitems : body.children = before ++ after := by
        rw [children, hbody]
        rfl
      have hfield {field : Term ι} (hfield : field ∈ term.children) (x y : ι × Kind)
          (h : Extracted [field] x y) : Extracted (term :: rest) x y :=
        (h.mono fun _ hmem => List.mem_singleton.mp hmem ▸ hfield).of_children List.mem_cons_self
      have hstatement {statements : List (Term ι)} (hsubset : statements ⊆ body.children)
          (x y : ι × Kind) (h : Extracted statements x y) : Extracted (term :: rest) x y :=
        ((h.mono hsubset).of_children hbody_mem).of_children List.mem_cons_self
      rw [List.flatMap_singleton] at ihname ihconstructor
      have hnames := ihname.mono (hfield hname_mem)
      have hfunction := ihconstructor.mono (hfield hconstructor_mem)
      have hearlier := ihbefore.mono (hstatement (hitems ▸ List.subset_append_left _ _))
      have hlater := ihafter.mono (hstatement (hitems ▸ List.subset_append_right _ _))
      have hothers : Rearranged (Extracted (term :: rest)) (rest.flatMap Term.contents) others :=
        ihrest.mono fun _ _ h => h.mono fun _ => List.mem_cons_of_mem _
      -- The only pairs out of order are those of the constructor and the body.
      have hmoved := hfunction.extract
        ((Rearranged.refl (Extracted (term :: rest)) body.own).append hearlier) hlater <| by
          intro x hx y hy
          refine ⟨term, List.mem_cons_self, term, term.mem_subterms_self, name, constructor, body,
            hterm, hx, ?_⟩
          rwa [Term.contents_eq, hitems, List.flatMap_append, ← List.append_assoc]
      rw [List.flatMap_cons, contents_of_classLiteral hterm hbody, List.flatMap_append,
        ← List.append_assoc body.own]
      simpa only [List.append_assoc] using (hnames.append hmoved).append hothers

end Term

end AstPromotion
