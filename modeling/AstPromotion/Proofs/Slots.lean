import AstPromotion.Form

/-! # Which field an entry goes to

A form is made of fields, and its children are what stands in them from left to
right. Writing visited children back deals the entries out to the fields in that
order, one entry for every child that was read.
-/

namespace AstPromotion

/-- A field, with what stands in it. -/
inductive Slot (α : Type)
  | required (child : α)
  | optional (child? : Option α)
  | many (items : List α)
deriving DecidableEq, Repr

namespace Slot

variable {α : Type}

def children : Slot α → List α
  | required child => [child]
  | optional child? => child?.toList
  | many items => items

/-- Whether the field has to be filled. -/
def isRequired : Slot α → Bool
  | required _ => true
  | _ => false

/-- The field after its children were visited, given one entry for each of them. -/
def fill : Slot α → List (Option α) → Slot α
  | required child, entries => required (entries.head?.join.getD child)
  | optional none, _ => optional none
  | optional (some _), entries => optional entries.head?.join
  | many _, entries => many (entries.filterMap id)

/-- Fields filled one after another, each from the entries that those before it have left. -/
def fillEach : List (Slot α) → List (Option α) → List (Slot α)
  | [], _ => []
  | slot :: rest, entries =>
    slot.fill (entries.take slot.children.length) ::
      fillEach rest (entries.drop slot.children.length)

/-- How many children stand in fields. -/
def width (slots : List (Slot α)) : Nat :=
  (slots.flatMap children).length

/-- What a visited child leaves behind, given whether its field has to be filled. -/
def survivor (occupant : α × Bool) (entry : Option α) : Option α :=
  entry.or (if occupant.2 then some occupant.1 else none)

/-- The children in fields, each with whether its field has to be filled. -/
def occupants (slots : List (Slot α)) : List (α × Bool) :=
  slots.flatMap fun slot => slot.children.map (·, slot.isRequired)

theorem map_fst_occupants (slots : List (Slot α)) :
    (occupants slots).map Prod.fst = slots.flatMap children := by
  rw [occupants, List.map_flatMap]
  simp only [List.map_map, Function.comp_def, List.map_id']

theorem width_cons (slot : Slot α) (rest : List (Slot α)) :
    width (slot :: rest) = slot.children.length + width rest := by
  rw [width, List.flatMap_cons, List.length_append, width]

theorem length_fillEach (slots : List (Slot α)) (entries : List (Option α)) :
    (fillEach slots entries).length = slots.length := by
  induction slots generalizing entries with
  | nil => rfl
  | cons slot rest ih => rw [fillEach, List.length_cons, ih, List.length_cons]

/-- A field takes the entries behind those of the fields before it. -/
theorem getElem?_fillEach (earlier : List (Slot α)) (slot : Slot α) (later : List (Slot α))
    (entries : List (Option α)) :
    (fillEach (earlier ++ slot :: later) entries)[earlier.length]? =
      some (slot.fill ((entries.drop (width earlier)).take slot.children.length)) := by
  induction earlier generalizing entries with
  | nil => rfl
  | cons first rest ih =>
      rw [List.cons_append, fillEach, List.length_cons, List.getElem?_cons_succ, ih, List.drop_drop,
        width_cons]

theorem children_fill (slot : Slot α) {entries : List (Option α)}
    (hlength : entries.length = slot.children.length) :
    (slot.fill entries).children =
      ((slot.children.map (·, slot.isRequired)).zip entries).filterMap fun (occupant, entry) =>
        survivor occupant entry := by
  cases slot with
  | required child =>
      obtain ⟨entry, rfl⟩ := List.length_eq_one_iff.mp hlength
      cases entry <;> rfl
  | optional child? =>
      cases child? with
      | none =>
          obtain rfl := List.eq_nil_of_length_eq_zero hlength
          rfl
      | some child =>
          obtain ⟨entry, rfl⟩ := List.length_eq_one_iff.mp hlength
          cases entry <;> rfl
  | many items =>
      rw [children] at hlength
      induction items generalizing entries with
      | nil =>
          obtain rfl := List.eq_nil_of_length_eq_zero hlength
          rfl
      | cons item rest ih =>
          obtain ⟨entry, others, rfl⟩ := List.exists_cons_of_length_eq_add_one hlength
          have hrest := ih (Nat.succ.inj hlength)
          simp only [fill, children, isRequired] at hrest ⊢
          cases entry <;> simp_all [survivor]

/-- What stands in a field that was filled stood in it before or was entered. -/
theorem mem_children_fill {slot : Slot α} {entries : List (Option α)} {child : α}
    (hchild : child ∈ (slot.fill entries).children) :
    child ∈ slot.children ∨ some child ∈ entries := by
  cases slot with
  | required old =>
      obtain rfl := List.mem_singleton.mp hchild
      rcases entries with _ | ⟨_ | entry, rest⟩
      · exact Or.inl List.mem_cons_self
      · exact Or.inl List.mem_cons_self
      · exact Or.inr List.mem_cons_self
  | optional child? =>
      cases child? with
      | none => cases hchild
      | some old =>
          rcases entries with _ | ⟨_ | entry, rest⟩
          · cases hchild
          · cases hchild
          · obtain rfl := List.mem_singleton.mp hchild
            exact Or.inr List.mem_cons_self
  | many items =>
      obtain ⟨entry, hentry, rfl⟩ := List.mem_filterMap.mp hchild
      exact Or.inr hentry

theorem mem_children_fillEach {slots : List (Slot α)} {entries : List (Option α)} {child : α}
    (hchild : child ∈ (fillEach slots entries).flatMap children) :
    child ∈ slots.flatMap children ∨ some child ∈ entries := by
  induction slots generalizing entries with
  | nil => cases hchild
  | cons slot rest ih =>
      rw [fillEach, List.flatMap_cons, List.mem_append] at hchild
      rw [List.flatMap_cons, List.mem_append]
      rcases hchild with hfirst | hlater
      · exact (mem_children_fill hfirst).imp Or.inl List.mem_of_mem_take
      · exact (ih hlater).imp Or.inr List.mem_of_mem_drop

theorem flatMap_children_fillEach {slots : List (Slot α)} {entries : List (Option α)}
    (hlength : entries.length = width slots) :
    (fillEach slots entries).flatMap children =
      ((occupants slots).zip entries).filterMap fun (occupant, entry) =>
        survivor occupant entry := by
  induction slots generalizing entries with
  | nil => rfl
  | cons slot rest ih =>
      rw [width_cons] at hlength
      have htaken : (entries.take slot.children.length).length = slot.children.length := by
        rw [List.length_take]
        omega
      have hleft : (entries.drop slot.children.length).length = width rest := by
        rw [List.length_drop]
        omega
      rw [fillEach, List.flatMap_cons, children_fill slot htaken, ih hleft, ← List.filterMap_append,
        ← List.zip_append (by rw [List.length_map, htaken]), List.take_append_drop]
      rfl

end Slot

namespace Form

variable {α : Type}

/-- The fields in source order. -/
def slots : Form α → List (Slot α)
  | .leaf _ _ => []
  | .group _ items => [.many items]
  | .unary operator operand => [.required operator, .required operand]
  | .binary operator left right | .comparison operator left right =>
    [.required left, .required operator, .required right]
  | .variableDeclaration identifier => [.required identifier]
  | .variableInitialisation identifier expression => [.required identifier, .required expression]
  | .variableAssignment target value => [.required target, .required value]
  | .arrayIndexWrite array index value => [.required array, .required index, .required value]
  | .call callee arguments => [.required callee, .required arguments]
  | .member object property => [.required object, .required property]
  | .functionLiteral name parameters body => [.optional name, .required parameters, .required body]
  | .functionDefinition function => [.required function]
  | .classLiteral name constructor body => [.required name, .optional constructor, .required body]
  | .classDefinition literal => [.required literal]
  | .ifStatement test consequent alternate =>
    [.required test, .required consequent, .optional alternate]
  | .whileStatement test consequent => [.required test, .required consequent]

/-- What heads the list of a group; a program's carries the data of the program. -/
def heading? : Form α → Option Heading
  | .group heading _ => some heading
  | _ => none

/-- Reading takes the children from the fields, in their order. -/
theorem children_eq_flatMap_slots (form : Form α) :
    form.children = form.slots.flatMap Slot.children := by
  cases form with
  | functionLiteral name parameters body => cases name <;> rfl
  | classLiteral name constructor body => cases constructor <;> rfl
  | ifStatement test consequent alternate => cases alternate <;> rfl
  | _ => simp [children, slots, Slot.children]

/-- A required field takes the first entry that is left, and the fields behind it take later ones. -/
theorem fillEach_required (child : α) (rest : List (Slot α)) (entries : List (Option α)) :
    Slot.fillEach (.required child :: rest) entries =
      .required (keep entries 0 child) :: Slot.fillEach rest (entries.drop 1) := by
  cases entries <;> rfl

theorem fillEach_absent (rest : List (Slot α)) (entries : List (Option α)) :
    Slot.fillEach (.optional none :: rest) entries =
      .optional none :: Slot.fillEach rest entries :=
  rfl

theorem fillEach_present (child : α) (rest : List (Slot α)) (entries : List (Option α)) :
    Slot.fillEach (.optional (some child) :: rest) entries =
      .optional entries[0]?.join :: Slot.fillEach rest (entries.drop 1) := by
  cases entries <;> rfl

theorem fillEach_nil (entries : List (Option α)) : Slot.fillEach [] entries = [] :=
  rfl

theorem keep_drop (entries : List (Option α)) (count position : Nat) (old : α) :
    keep (entries.drop count) position old = keep entries (count + position) old := by
  rw [keep, keep, List.getElem?_drop]

/-- Writing fills the fields one after another. -/
theorem slots_refill (form : Form α) (entries : List (Option α)) :
    (form.refill entries).slots = Slot.fillEach form.slots entries := by
  cases form with
  | leaf kind value => rfl
  | group heading items => rfl
  | functionLiteral name parameters body =>
      cases name <;>
        simp only [refill, slots, fillEach_required, fillEach_absent, fillEach_present, fillEach_nil,
          keep_drop]
  | classLiteral name constructor body =>
      cases constructor <;>
        simp only [refill, slots, fillEach_required, fillEach_absent, fillEach_present, fillEach_nil,
          keep_drop, List.drop_drop, List.getElem?_drop]
  | ifStatement test consequent alternate =>
      cases alternate <;>
        simp only [refill, slots, fillEach_required, fillEach_absent, fillEach_present, fillEach_nil,
          keep_drop, List.drop_drop, List.getElem?_drop]
  | _ => simp only [refill, slots, fillEach_required, fillEach_nil, keep_drop, List.drop_drop]

/-- Writing back brings in no children but those that were entered. -/
theorem mem_children_refill {form : Form α} {entries : List (Option α)} {child : α}
    (hchild : child ∈ (form.refill entries).children) :
    child ∈ form.children ∨ some child ∈ entries := by
  rw [children_eq_flatMap_slots, slots_refill] at hchild
  rw [children_eq_flatMap_slots]
  exact Slot.mem_children_fillEach hchild

/-- A form is told by its kind, the data it carries and its fields. -/
theorem eq_of_slots_eq {form other : Form α} (hkind : form.kind = other.kind)
    (hvalue : form.value? = other.value?) (hheading : form.heading? = other.heading?)
    (hslots : form.slots = other.slots) : form = other := by
  cases form <;> cases other <;> simp_all [kind, value?, heading?, slots]

theorem value?_refill (form : Form α) (entries : List (Option α)) :
    (form.refill entries).value? = form.value? := by
  cases form with
  | functionLiteral name parameters body => cases name <;> rfl
  | classLiteral name constructor body => cases constructor <;> rfl
  | ifStatement test consequent alternate => cases alternate <;> rfl
  | _ => rfl

theorem heading?_refill (form : Form α) (entries : List (Option α)) :
    (form.refill entries).heading? = form.heading? := by
  cases form with
  | functionLiteral name parameters body => cases name <;> rfl
  | classLiteral name constructor body => cases constructor <;> rfl
  | ifStatement test consequent alternate => cases alternate <;> rfl
  | _ => rfl

/-- What becomes of a form whose visited children are written back. It stays what it is, and each of
its fields takes the entries at the positions that the field's children have among all children. A
required field keeps its child if the entry is empty, an optional field that was filled is then
cleared, and one that was empty stays so. A list takes the entries that are not empty. -/
structure Refilled (form : Form α) (entries : List (Option α)) (result : Form α) : Prop where
  kind : result.kind = form.kind
  payload : result.value? = form.value?
  heading : result.heading? = form.heading?
  length : result.slots.length = form.slots.length
  required : ∀ earlier child later, form.slots = earlier ++ .required child :: later →
    ∃ entry, form.children[Slot.width earlier]? = some child ∧
      entries[Slot.width earlier]? = some entry ∧
        result.slots[earlier.length]? = some (.required (entry.getD child))
  absent : ∀ earlier later, form.slots = earlier ++ .optional none :: later →
    result.slots[earlier.length]? = some (.optional none)
  present : ∀ earlier child later, form.slots = earlier ++ .optional (some child) :: later →
    ∃ entry, form.children[Slot.width earlier]? = some child ∧
      entries[Slot.width earlier]? = some entry ∧
        result.slots[earlier.length]? = some (.optional entry)
  many : ∀ earlier items later, form.slots = earlier ++ .many items :: later →
    (form.children.drop (Slot.width earlier)).take items.length = items ∧
      result.slots[earlier.length]? =
        some (.many (((entries.drop (Slot.width earlier)).take items.length).filterMap id))

variable {form result : Form α} {entries : List (Option α)} {earlier later : List (Slot α)}
  {slot : Slot α} {child : α}

/-- A field takes its children from the positions behind those of the fields before it. -/
theorem children_of_slots_eq (hslots : form.slots = earlier ++ slot :: later) :
    (form.children.drop (Slot.width earlier)).take slot.children.length = slot.children := by
  rw [children_eq_flatMap_slots, hslots, List.flatMap_append, List.flatMap_cons, Slot.width,
    List.drop_left, List.take_left]

theorem getElem?_slots_refill (hslots : form.slots = earlier ++ slot :: later)
    (entries : List (Option α)) :
    (form.refill entries).slots[earlier.length]? =
      some (slot.fill ((entries.drop (Slot.width earlier)).take slot.children.length)) := by
  rw [slots_refill, hslots, Slot.getElem?_fillEach]

/-- A field with one child has it, and the entry that it is filled with, at one position. -/
theorem exists_entry (hslots : form.slots = earlier ++ slot :: later)
    (hchildren : slot.children = [child]) (hlength : entries.length = form.children.length) :
    ∃ entry, form.children[Slot.width earlier]? = some child ∧
      entries[Slot.width earlier]? = some entry ∧
        (form.refill entries).slots[earlier.length]? = some (slot.fill [entry]) := by
  have hchild := children_of_slots_eq hslots
  rw [getElem?_slots_refill hslots]
  rw [hchildren, List.length_singleton] at hchild ⊢
  have hfound : form.children[Slot.width earlier]? = some child := by
    have hhead := congrArg List.head? hchild
    rwa [List.head?_take, if_neg Nat.one_ne_zero, List.head?_drop] at hhead
  obtain ⟨hinside, -⟩ := List.getElem?_eq_some_iff.mp hfound
  rw [← hlength] at hinside
  refine ⟨entries[Slot.width earlier], hfound, List.getElem?_eq_getElem hinside, ?_⟩
  rw [List.drop_eq_getElem_cons hinside]
  rfl

theorem refilled_refill (hlength : entries.length = form.children.length) :
    form.Refilled entries (form.refill entries) where
  kind := form.kind_refill entries
  payload := form.value?_refill entries
  heading := form.heading?_refill entries
  length := by rw [slots_refill, Slot.length_fillEach]
  required _ _ _ hslots := exists_entry hslots rfl hlength
  absent _ _ hslots := getElem?_slots_refill hslots entries
  present _ _ _ hslots := exists_entry hslots rfl hlength
  many _ _ _ hslots := ⟨children_of_slots_eq hslots, getElem?_slots_refill hslots entries⟩

/-- Nothing else can become of the form. -/
theorem Refilled.unique {other : Form α} (hresult : form.Refilled entries result)
    (hother : form.Refilled entries other) : result = other := by
  apply eq_of_slots_eq (hresult.kind.trans hother.kind.symm)
    (hresult.payload.trans hother.payload.symm) (hresult.heading.trans hother.heading.symm)
  refine List.ext_getElem? fun position => ?_
  rcases Nat.lt_or_ge position form.slots.length with hinside | houtside
  · have hslots : form.slots =
        form.slots.take position ++ form.slots[position] :: form.slots.drop (position + 1) := by
      rw [← List.drop_eq_getElem_cons hinside, List.take_append_drop]
    have hposition : (form.slots.take position).length = position :=
      List.length_take_of_le (Nat.le_of_lt hinside)
    rw [← hposition]
    cases hslot : form.slots[position] with
    | required child =>
        rw [hslot] at hslots
        obtain ⟨entry, -, hentry, hfilled⟩ := hresult.required _ _ _ hslots
        obtain ⟨entry', -, hentry', hfilled'⟩ := hother.required _ _ _ hslots
        obtain rfl := Option.some.inj (hentry.symm.trans hentry')
        exact hfilled.trans hfilled'.symm
    | optional child? =>
        rw [hslot] at hslots
        cases child? with
        | none => exact (hresult.absent _ _ hslots).trans (hother.absent _ _ hslots).symm
        | some child =>
            obtain ⟨entry, -, hentry, hfilled⟩ := hresult.present _ _ _ hslots
            obtain ⟨entry', -, hentry', hfilled'⟩ := hother.present _ _ _ hslots
            obtain rfl := Option.some.inj (hentry.symm.trans hentry')
            exact hfilled.trans hfilled'.symm
    | many items =>
        rw [hslot] at hslots
        exact (hresult.many _ _ _ hslots).2.trans (hother.many _ _ _ hslots).2.symm
  · rw [List.getElem?_eq_none (by rwa [hresult.length]),
      List.getElem?_eq_none (by rwa [hother.length])]

/-- Writing back the children of a form makes of it what each of its fields asks for and nothing
else. So children that are written back as they were read leave the form as it was, and otherwise
they are the entries in order, with the old child in place of an entry that is empty where the field
has to be filled. -/
theorem refill_visited (hlength : entries.length = form.children.length) :
    (∀ result, form.refill entries = result ↔ form.Refilled entries result) ∧
      form.refill (form.children.map some) = form ∧
        (Slot.occupants form.slots).map Prod.fst = form.children ∧
          (form.refill entries).children =
            ((Slot.occupants form.slots).zip entries).filterMap fun (occupant, entry) =>
              Slot.survivor occupant entry := by
  refine ⟨fun result => ⟨?_, (refilled_refill hlength).unique⟩, form.refill_children, ?_, ?_⟩
  · rintro rfl
    exact refilled_refill hlength
  · rw [children_eq_flatMap_slots, Slot.map_fst_occupants]
  · rw [children_eq_flatMap_slots, slots_refill]
    apply Slot.flatMap_children_fillEach
    rw [hlength, children_eq_flatMap_slots, Slot.width]

/-- The name of a class goes, its constructor goes too, and its body is replaced: the name stays, as
a class must have one, and the body takes the third entry. -/
theorem refill_visited_class :
    let form := Form.classLiteral 1 (some 2) 3
    let entries := [none, none, some 7]
    entries.length = form.children.length ∧ form.Refilled entries (.classLiteral 1 none 7) ∧
      (form.refill entries).children = [1, 7] := by
  intro form entries
  have hlength : entries.length = form.children.length := rfl
  obtain ⟨hrefill, -, -, hchildren⟩ := refill_visited hlength
  exact ⟨hlength, (hrefill _).mp rfl, hchildren⟩

end Form

end AstPromotion
