import AstPromotion.Proofs.Normalization.Settling
import AstPromotion.Proofs.Promotion.Invariant

/-! # What becomes of leaves

No rule makes a leaf. A leaf that is left was there from the start, with the same
label and kind, and its payload is the one it had or was read from that.
-/

namespace AstPromotion

namespace Term

variable {ι κ : Type}

/-- A property of labels, kinds and payloads that all leaves of the term have. -/
def AllLeaves (property : ι → LeafKind → Value → Prop) (term : Term ι) : Prop :=
  ∀ inner ∈ term.subterms, ∀ kind value, inner.form = .leaf kind value →
    property inner.label kind value

theorem AllLeaves.mono {property other : ι → LeafKind → Value → Prop} {term : Term ι}
    (hleaves : term.AllLeaves property)
    (h : ∀ label kind value, property label kind value → other label kind value) :
    term.AllLeaves other := fun inner hinner kind value hform =>
  h _ _ _ (hleaves inner hinner kind value hform)

theorem allLeaves_map {f : ι → κ} {property : κ → LeafKind → Value → Prop} {term : Term ι} :
    (term.map f).AllLeaves property ↔ term.AllLeaves fun label => property (f label) := by
  rw [AllLeaves, AllLeaves, subterms_map, List.forall_mem_map]
  simp only [label_map, form_map, Form.map_eq_leaf_iff]

/-- Where labels do not matter, changing them makes no difference. -/
theorem allLeaves_map_iff {f : ι → κ} {property : LeafKind → Value → Prop} {term : Term ι} :
    ((term.map f).AllLeaves fun _ => property) ↔ term.AllLeaves fun _ => property :=
  allLeaves_map

/-- Where a payload comes from: it was there, or it was read from what was there. -/
def Stems (term : Term ι) (label : ι) (kind : LeafKind) (value : Value) : Prop :=
  ∃ origin ∈ term.subterms, origin.label = label ∧
    (origin.form = .leaf kind value ∨ ∃ text, origin.form = .leaf kind (.raw text) ∧
      Normalization.readValue kind text = some value)

theorem allLeaves_stems (term : Term ι) : term.AllLeaves term.Stems :=
  fun inner hinner _ _ hform => ⟨inner, hinner, rfl, Or.inl hform⟩

/-- Reading once more makes no difference. -/
theorem Stems.read {term : Term ι} {label : ι} {kind : LeafKind} {text : String} {value : Value}
    (hstems : term.Stems label kind (.raw text))
    (hread : Normalization.readValue kind text = some value) : term.Stems label kind value := by
  obtain ⟨origin, horigin, hlabel, hform | ⟨other, hform, hraw⟩⟩ := hstems
  · exact ⟨origin, horigin, hlabel, Or.inr ⟨text, hform, hread⟩⟩
  · exact absurd hraw Normalization.ne_raw_of_readValue

/-- In a settled term nothing is left to read. -/
theorem allLeaves_of_settled {term : Term ι} (hsettled : term.Settled .normalization) :
    term.AllLeaves fun _ kind value =>
      ∀ text, value = .raw text → Normalization.readValue kind text = none := by
  intro inner hinner kind value hform text hraw
  cases hread : Normalization.readValue kind text with
  | none => rfl
  | some read =>
      subst hraw
      exact absurd (Or.inl ⟨kind, text, read, hform, hread⟩)
        (Normalization.not_rough_of_plan? (hsettled inner hinner))

end Term

open Term (node)

variable {ι : Type} {fresh : ι} {term : Term ι} {property : ι → LeafKind → Value → Prop}

namespace Normalization

/-- Normalization keeps a property of leaves that reading keeps. -/
theorem allLeaves_normalize (hshallow : term.Shallow) (hleaves : term.AllLeaves property)
    (hread : ∀ label kind text value, property label kind (.raw text) →
      readValue kind text = some value → property label kind value)
    (hstays : (term.normalize fresh).gone = false) :
    (term.normalize fresh).term.AllLeaves property := by
  refine forall_subterms_normalize ?_ hshallow (fun inner hinner _ _ _ => hleaves inner hinner) ?_
    hstays
  · exact fun _ _ _ _ _ _ hform => nomatch hform
  · intro inner hinner kind text value hform hvalue kind' value' hform'
    cases hform'
    exact hread _ _ _ _ (hleaves inner hinner kind _ hform) hvalue

end Normalization

namespace Promotion

theorem inductive_leaves (fresh : ι) (property : ι → LeafKind → Value → Prop) :
    Inductive fresh fun term => ∀ kind value, term.form = .leaf kind value →
      property term.label kind value where
  group _ _ _ _ _ _ _ hform := nomatch hform
  body _ _ _ _ _ _ _ hform := nomatch hform
  build subject form relisted hstep _ kind value hform := by
    obtain ⟨built, hbuilt⟩ := exists_kind_of_step hstep
    have hkind := kind_relist (fields_of_step hstep)
    rw [hbuilt, ← Term.form_node fresh (Term.relist relisted form), hform] at hkind
    cases hkind

/-- Promotion leaves no leaf that was not there. -/
theorem allLeaves_promote (hshallow : term.Shallow) (hleaves : term.AllLeaves property)
    (hstays : (term.promote fresh).gone = false) :
    (term.promote fresh).term.AllLeaves property :=
  (inductive_leaves fresh property).promote hshallow (fun inner hinner _ _ _ => hleaves inner hinner)
    hstays

end Promotion

end AstPromotion
