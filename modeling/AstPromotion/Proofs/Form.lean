import AstPromotion.Form

/-! # Forms under substitution and removal

Visiting a node replaces its children and drops some of them. On forms these
are `map` and `prune`; writing visited children back is one after the other.
-/

namespace AstPromotion.Form

variable {α β γ : Type}

theorem exists_of_kind_leaf {form : Form α} {kind : LeafKind} (hkind : form.kind = .leaf kind) :
    ∃ value, form = .leaf kind value := by
  cases form with
  | leaf _ value =>
      cases hkind
      exact ⟨value, rfl⟩
  | _ => cases hkind

theorem exists_of_kind_group {form : Form α} {kind : GroupKind} (hkind : form.kind = .group kind) :
    ∃ heading items, form = .group heading items := by
  cases form with
  | group heading items => exact ⟨heading, items, rfl⟩
  | _ => cases hkind

theorem map_eq_leaf_iff {f : α → β} {form : Form α} {kind : LeafKind} {value : Value} :
    form.map f = .leaf kind value ↔ form = .leaf kind value := by
  cases form <;> simp [map]

theorem exists_of_map_eq_group {f : α → β} {form : Form α} {heading : Heading} {items : List β}
    (hform : form.map f = .group heading items) :
    ∃ origins, form = .group heading origins ∧ origins.map f = items := by
  cases form with
  | group heading origins =>
      cases hform
      exact ⟨origins, rfl, rfl⟩
  | _ => cases hform

/-- The form over its own children, for recursion below it. -/
def attach : (form : Form α) → Form { child // child ∈ form.children }
  | .leaf kind value => .leaf kind value
  | .group heading items => .group heading items.attach
  | .unary operator operand =>
    .unary ⟨operator, by simp [children]⟩ ⟨operand, by simp [children]⟩
  | .binary operator left right =>
    .binary ⟨operator, by simp [children]⟩ ⟨left, by simp [children]⟩ ⟨right, by simp [children]⟩
  | .comparison operator left right =>
    .comparison ⟨operator, by simp [children]⟩ ⟨left, by simp [children]⟩
      ⟨right, by simp [children]⟩
  | .variableDeclaration identifier => .variableDeclaration ⟨identifier, by simp [children]⟩
  | .variableInitialisation identifier expression =>
    .variableInitialisation ⟨identifier, by simp [children]⟩ ⟨expression, by simp [children]⟩
  | .variableAssignment target value =>
    .variableAssignment ⟨target, by simp [children]⟩ ⟨value, by simp [children]⟩
  | .arrayIndexWrite array index value =>
    .arrayIndexWrite ⟨array, by simp [children]⟩ ⟨index, by simp [children]⟩
      ⟨value, by simp [children]⟩
  | .call callee arguments => .call ⟨callee, by simp [children]⟩ ⟨arguments, by simp [children]⟩
  | .member object property => .member ⟨object, by simp [children]⟩ ⟨property, by simp [children]⟩
  | .functionLiteral name parameters body =>
    .functionLiteral (name.attach.map fun ⟨child, held⟩ => ⟨child, by simp_all [children]⟩)
      ⟨parameters, by simp [children]⟩ ⟨body, by simp [children]⟩
  | .functionDefinition function => .functionDefinition ⟨function, by simp [children]⟩
  | .classLiteral name constructor body =>
    .classLiteral ⟨name, by simp [children]⟩
      (constructor.attach.map fun ⟨child, held⟩ => ⟨child, by simp_all [children]⟩)
      ⟨body, by simp [children]⟩
  | .classDefinition literal => .classDefinition ⟨literal, by simp [children]⟩
  | .ifStatement test consequent alternate =>
    .ifStatement ⟨test, by simp [children]⟩ ⟨consequent, by simp [children]⟩
      (alternate.attach.map fun ⟨child, held⟩ => ⟨child, by simp_all [children]⟩)
  | .whileStatement test consequent =>
    .whileStatement ⟨test, by simp [children]⟩ ⟨consequent, by simp [children]⟩

theorem map_attach (f : α → β) (form : Form α) :
    (form.attach.map fun child => f child.1) = form.map f := by
  cases form with
  | group heading items => exact congrArg (group heading) List.attach_map_val
  | functionLiteral name parameters body => cases name <;> rfl
  | classLiteral name constructor body => cases constructor <;> rfl
  | ifStatement test consequent alternate => cases alternate <;> rfl
  | _ => rfl

theorem sizeOf_lt_of_mem_children [SizeOf α] {form : Form α} {child : α}
    (hchild : child ∈ form.children) : sizeOf child < sizeOf form := by
  cases form with
  | leaf kind value => simp [children] at hchild
  | group heading items =>
      have hitems : sizeOf child < sizeOf items := List.sizeOf_lt_of_mem hchild
      simp only [group.sizeOf_spec]
      omega
  | functionLiteral name parameters body =>
      cases name <;> simp [children] at hchild <;> grind
  | classLiteral name constructor body =>
      cases constructor <;> simp [children] at hchild <;> grind
  | ifStatement test consequent alternate =>
      cases alternate <;> simp [children] at hchild <;> grind
  | _ => simp [children] at hchild; grind

theorem map_map (g : β → γ) (f : α → β) (form : Form α) :
    (form.map f).map g = form.map (g ∘ f) := by
  cases form <;> simp [map]

theorem map_congr {f g : α → β} {form : Form α} (h : ∀ child ∈ form.children, f child = g child) :
    form.map f = form.map g := by
  cases form with
  | functionLiteral name parameters body => cases name <;> simp_all [map, children]
  | classLiteral name constructor body => cases constructor <;> simp_all [map, children]
  | ifStatement test consequent alternate => cases alternate <;> simp_all [map, children]
  | _ => simp_all [map, children]

theorem map_eq_self {f : α → α} {form : Form α} (h : ∀ child ∈ form.children, f child = child) :
    form.map f = form := by
  rw [map_congr h]
  cases form <;> simp [map]

@[simp] theorem value?_map (f : α → β) (form : Form α) : (form.map f).value? = form.value? := by
  cases form <;> rfl

@[simp] theorem word?_map (f : α → β) (form : Form α) : (form.map f).word? = form.word? := by
  rw [word?, value?_map, word?]

@[simp] theorem isKeyword_map (f : α → β) (form : Form α) (word : String) :
    (form.map f).isKeyword word = form.isKeyword word := by
  rw [isKeyword, kind_map, word?_map, isKeyword]

/-- A leaf with another payload; any other form as it is. -/
def withValue (value : Value) : Form α → Form α
  | .leaf kind _ => .leaf kind value
  | form => form

theorem kind_mapItems (f : List α → List α) (form : Form α) : (form.mapItems f).kind = form.kind := by
  cases form <;> rfl

@[simp] theorem kind_withValue (value : Value) (form : Form α) :
    (form.withValue value).kind = form.kind := by
  cases form <;> rfl

@[simp] theorem children_withValue (value : Value) (form : Form α) :
    (form.withValue value).children = form.children := by
  cases form <;> rfl

@[simp] theorem map_withValue (f : α → β) (value : Value) (form : Form α) :
    (form.withValue value).map f = (form.map f).withValue value := by
  cases form <;> rfl

/-! ## Removal -/

/-- The form without the children that are gone. A required field keeps its child all the same. -/
def prune (gone : α → Bool) : Form α → Form α
  | .group heading items => .group heading (items.filter (!gone ·))
  | .functionLiteral name parameters body =>
    .functionLiteral (name.filter (!gone ·)) parameters body
  | .classLiteral name constructor body => .classLiteral name (constructor.filter (!gone ·)) body
  | .ifStatement test consequent alternate =>
    .ifStatement test consequent (alternate.filter (!gone ·))
  | form => form

@[simp] theorem kind_prune (gone : α → Bool) (form : Form α) :
    (form.prune gone).kind = form.kind := by
  cases form <;> rfl

theorem prune_map (f : α → β) (gone : β → Bool) (form : Form α) :
    (form.map f).prune gone = (form.prune (gone ∘ f)).map f := by
  cases form with
  | group heading items => simp [prune, map, List.filter_map, Function.comp_def]
  | functionLiteral name parameters body =>
      cases name with
      | none => rfl
      | some name => cases hgone : gone (f name) <;> simp [prune, map, Option.filter, hgone]
  | classLiteral name constructor body =>
      cases constructor with
      | none => rfl
      | some constructor => cases hgone : gone (f constructor) <;> simp [prune, map, Option.filter, hgone]
  | ifStatement test consequent alternate =>
      cases alternate with
      | none => rfl
      | some alternate => cases hgone : gone (f alternate) <;> simp [prune, map, Option.filter, hgone]
  | _ => rfl

theorem children_prune_sublist (gone : α → Bool) (form : Form α) :
    (form.prune gone).children.Sublist form.children := by
  cases form with
  | group heading items => exact List.filter_sublist
  | functionLiteral name parameters body =>
      cases name with
      | none => exact List.Sublist.refl _
      | some name => cases hgone : gone name <;> simp [prune, children, Option.filter, hgone]
  | classLiteral name constructor body =>
      cases constructor with
      | none => exact List.Sublist.refl _
      | some constructor => cases hgone : gone constructor <;> simp [prune, children, Option.filter, hgone]
  | ifStatement test consequent alternate =>
      cases alternate with
      | none => exact List.Sublist.refl _
      | some alternate => cases hgone : gone alternate <;> simp [prune, children, Option.filter, hgone]
  | _ => exact List.Sublist.refl _

theorem prune_eq_self {gone : α → Bool} {form : Form α}
    (h : ∀ child ∈ form.children, gone child = false) : form.prune gone = form := by
  cases form with
  | functionLiteral name parameters body => cases name <;> simp_all [prune, children, Option.filter]
  | classLiteral name constructor body => cases constructor <;> simp_all [prune, children, Option.filter]
  | ifStatement test consequent alternate => cases alternate <;> simp_all [prune, children, Option.filter]
  | _ => simp_all [prune, children]

/-- Writing back visited children prunes those that are gone and maps the others. -/
theorem refill_map {gone : α → Bool} {old new : α → β} {form : Form α}
    (h : ∀ child ∈ form.children, gone child = true → new child = old child) :
    (form.map old).refill
        (form.children.map fun child => if gone child then none else some (new child)) =
      (form.prune gone).map new := by
  have hkeep (child : α) (hchild : child ∈ form.children) :
      ((if gone child then none else some (new child)).getD (old child)) = new child := by
    cases hgone : gone child with
    | false => rfl
    | true => exact (h child hchild hgone).symm
  cases form with
  | group heading items =>
      simp only [map, refill, children, prune, List.length_map]
      congr 1
      rw [List.take_of_length_le (by simp)]
      clear h hkeep
      induction items with
      | nil => rfl
      | cons item rest ih => cases hgone : gone item <;> simp_all
  | functionLiteral name parameters body =>
      cases name with
      | none => simp_all [map, refill, children, prune, keep, Option.filter]
      | some name => cases hgone : gone name <;> simp_all [map, refill, children, prune, keep, Option.filter]
  | classLiteral name constructor body =>
      cases constructor with
      | none => simp_all [map, refill, children, prune, keep, Option.filter]
      | some constructor =>
          cases hgone : gone constructor <;> simp_all [map, refill, children, prune, keep, Option.filter]
  | ifStatement test consequent alternate =>
      cases alternate with
      | none => simp_all [map, refill, children, prune, keep, Option.filter]
      | some alternate =>
          cases hgone : gone alternate <;> simp_all [map, refill, children, prune, keep, Option.filter]
  | _ => simp_all [map, refill, children, prune, keep]

end AstPromotion.Form
